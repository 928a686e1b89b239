import BinjaHexagon.Declared
import BinjaHexagon.FieldRows
import BinjaHexagon.MacroNesting
/-!
# FieldExact — when the bit-field instructions are exact

A row is exact where its lifted assignments leave C's bits in the destination and none of its shifts goes past its
operand.
-/
namespace Hex

open Bytes (norm)
open CInt (Ty Val)
open Flow (Block)
open Opcodes (rd rs rt rx rdd rss rtt rxx pu puNew ps val var int add)

section Sources

variable (E : LiftEnv) (imms : ImmLetter → BitVec 32) (s : State Temp)

/-- The place of an operand. -/
def LiftEnv.operand (d : OperandDecl) : LReg Temp := resolveReg E.regs E.insnNum d.name

/-- The C value of a register operand. -/
def regVal (d : OperandDecl) : Val :=
  valOf ⟨8 * regBytes d.regtype d.regid, d.regtype != .P⟩ (s.get (regBytes d.regtype d.regid) (E.operand d)).toNat

/-- The C value of an immediate. -/
def immVal (l : ImmLetter) : Val := valOf (sizes 4) (imms l).toInt

variable {E imms s} {d : OperandDecl}

theorem State.norm_get {τ : Type} (s : State τ) (r : LReg τ) {m n : Nat} (hm : m ≤ n) (hn : n ≤ 8) :
    norm m (s.get n r) = s.get m r := by
  cases r with
  | hex r => exact norm_join_le _ hm hn
  | temp t => exact norm_join_le _ hm hn

theorem State.get_set_ne {l : LReg Temp} {t : Temp} (h : l ≠ .temp t) (n m : Nat) (v : BitVec 64) :
    (s.set n (.temp t) v).get m l = s.get m l := by
  cases l with
  | hex r => rfl
  | temp u => exact State.get_setTemp_ne s n v (fun he => h (by rw [he])) m

theorem State.get_set_same (t : Temp) {n : Nat} (hn : n ≤ 8) (x : Int) :
    (s.set n (.temp t) (held n x)).get n (.temp t) = held n x := by
  refine (State.get_setTemp_same s n (held n x) t hn).trans ?_
  rw [norm_held hn, held_conv]

theorem get_regVal (d : OperandDecl) {n : Nat} (hn : n ≤ regBytes d.regtype d.regid) :
    s.get n (E.operand d) = held n (regVal E s d).val := by
  have hb := (regSize_le d.regtype d.regid).2.1
  rw [regVal, valOf, held_congr (Ty.ofInt_conv_of_le (Nat.mul_le_mul_left 8 hn) _), held_toNat,
    State.norm_get s _ hn (by omega)]

theorem Expr.Lifts.source {d : OperandDecl} {n : Nat} (hd : d.isNew = false) (hn : regSize d.regtype d.regid = n) :
    (val d).Lifts E imms s n true (regVal E s d).val True := by
  have hname : d.name = .oldV d.regtype d.regid := by rw [OperandDecl.name, hd]; rfl
  refine register (r := .oldV d.regtype d.regid) (by rw [← hn]; rfl) ?_
  rw [← hname]
  exact get_regVal d (hn ▸ (regSize_le d.regtype d.regid).1)

theorem lift_var (d : OperandDecl) :
    liftOperand (var d) = .register (regSize d.regtype d.regid) (.oldV d.regtype d.regid) := rfl
theorem lift_width : liftOperand (.tmp .width) = .register 8 .widthReg := rfl
theorem lift_offset : liftOperand (.tmp .offset) = .register 8 .offsetReg := rfl

/-- A statement whose shifts are in range if and only if `ok` leaves, where they are, C's result in its destination if
and only if `fine`. -/
def Leaves (E : LiftEnv) (imms : ImmLetter → BitVec 32) (s : State Temp) (t : Stmt) (d : OperandDecl) (res : Option Val)
    (ok fine : Prop) : Prop :=
  ∃ s', t.Runs E imms s s' ok ∧ (ok → ((∃ y, res = some y ∧
    s'.get (regBytes d.regtype d.regid) (E.operand d) = held (regBytes d.regtype d.regid) y.val) ↔ fine))

variable {e : Expr} {m n q : Nat} {sg : Bool} {x : Int} {ok fine : Prop} {res : Option Val}

/-- One assignment of a value that is the same at the size of the destination: it is C's where its bits are. -/
theorem leaves_assg_iff (hd : d.isNew = false) (hdst : E.operand d = .temp (.reg 0 q))
    (hn : regSize d.regtype d.regid = n) (hb : regBytes d.regtype d.regid = n) (he : e.Lifts E imms s m sg x ok)
    (hx : ok → held m x = held n x)
    (hres : ok → ∃ y, res = some y ∧ (BitVec.ofInt (8 * n) y.val = BitVec.ofInt (8 * n) x ↔ fine)) :
    Leaves E imms s (.assg (var d) e) d res ok fine := by
  have hname : d.name = .oldV d.regtype d.regid := by rw [OperandDecl.name, hd]; rfl
  have hdst' : resolveReg E.regs E.insnNum (.oldV d.regtype d.regid) = .temp (.reg 0 q) := hname ▸ hdst
  have hn8 : n ≤ 8 := by
    have := (regSize_le d.regtype d.regid).2.2
    omega
  obtain ⟨w, hrun, hw⟩ := Stmt.Runs.assg he (lift_var d)
  refine ⟨_, hrun, fun hok => ?_⟩
  obtain ⟨y, hy, hbits⟩ := hres hok
  have hget : (s.set n (.temp (.reg 0 q)) w).get n (.temp (.reg 0 q)) = held n x := by
    rw [hw hok, hx hok]
    exact State.get_set_same (.reg 0 q) hn8 x
  rw [hb, hdst', hdst, hn, hget, ← hbits]
  constructor
  · rintro ⟨z, hz, hheld⟩
    obtain rfl : y = z := Option.some.inj (hy.symm.trans hz)
    rw [← setWidth_held hn8, ← hheld, setWidth_held hn8]
  · exact fun h => ⟨y, hy, held_congr h.symm⟩

theorem leaves_assg (hd : d.isNew = false) (hdst : E.operand d = .temp (.reg 0 q)) (hn : regSize d.regtype d.regid = n)
    (hb : regBytes d.regtype d.regid = n) (he : e.Lifts E imms s m sg x ok) (hx : ok → held m x = held n x)
    (hres : ok → ∃ y, res = some y ∧ BitVec.ofInt (8 * n) y.val = BitVec.ofInt (8 * n) x) :
    Leaves E imms s (.assg (var d) e) d res ok True :=
  leaves_assg_iff hd hdst hn hb he hx fun hok =>
    let ⟨y, hy, hbits⟩ := hres hok
    ⟨y, hy, iff_of_true hbits trivial⟩

theorem Leaves.congr {t : Stmt} (h : Leaves E imms s t d res ok fine) {ok' fine' : Prop} (hok : ok ↔ ok')
    (hfine : fine ↔ fine') : Leaves E imms s t d res ok' fine' := by
  obtain ⟨s', hrun, hres⟩ := h
  exact ⟨s', hrun.range hok, fun h => (hres (hok.2 h)).trans hfine⟩

end Sources

theorem testBit_zxt (w : Nat) (x : Int) (i : Nat) : (zxt w x).testBit i = (x.testBit i && decide (i < w)) := by
  have hmask : ((2 ^ w - 1 : Int)) = ((2 ^ w - 1 : Nat) : Int) := by rw [Nat.cast_sub Nat.one_le_two_pow]; simp
  rw [zxt, hmask, Int.testBit_land, show Int.testBit ((2 ^ w - 1 : Nat) : Int) i = (2 ^ w - 1).testBit i from rfl,
    Nat.testBit_two_pow_sub_one]

/-- A field is the same at every size that has room for it. -/
theorem held_zxt {m n w : Nat} {x : Int} (hm : w ≤ 8 * m) (hn : w ≤ 8 * n) : held m (zxt w x) = held n (zxt w x) := by
  refine BitVec.eq_of_getLsbD_eq fun i _ => ?_
  rw [getLsbD_held, getLsbD_held, testBit_zxt]
  by_cases h : i < w
  · rw [decide_eq_true (show i < 8 * m by omega), decide_eq_true (show i < 8 * n by omega)]
  · rw [decide_eq_false h, Bool.and_false, Bool.and_false, Bool.and_false, Bool.and_false, Bool.and_false]

theorem ofInt_zxt_iff {n w : Nat} {x y : Int} (hw : w ≤ n) :
    BitVec.ofInt n (zxt w x) = BitVec.ofInt n (zxt w y) ↔ ∀ i < w, x.testBit i = y.testBit i := by
  rw [CInt.ofInt_eq_iff]
  constructor
  · intro h i hi
    simpa only [testBit_zxt, hi, decide_true, Bool.and_true] using h i (by omega)
  · intro h i _
    rw [testBit_zxt, testBit_zxt]
    by_cases hi : i < w
    · rw [h i hi]
    · rw [decide_eq_false hi, Bool.and_false, Bool.and_false]

theorem ofInt_xt_iff (signed : Bool) {n w : Nat} {x y : Int} (hw : w ≤ n) :
    BitVec.ofInt n (if signed then sxt w x else zxt w x) = BitVec.ofInt n (if signed then sxt w y else zxt w y) ↔
      ∀ i < w, x.testBit i = y.testBit i := by
  rw [← ofInt_zxt_iff hw]
  cases signed with
  | false => exact Iff.rfl
  | true =>
    refine ⟨fun h => ?_, fun h => IlBinop.Arith.sub.congr (IlBinop.Arith.xor.congr h rfl) rfl⟩
    -- the top bit that was taken off the field is put back
    have hback (z : Int) : BitVec.ofInt n (Int.xor (sxt w z + 2 ^ (w - 1)) (2 ^ (w - 1))) =
        BitVec.ofInt n (zxt w z) := by
      rw [sxt, Int.sub_add_cancel, CInt.ofInt_lxor, CInt.ofInt_lxor, BitVec.xor_assoc, BitVec.xor_self, BitVec.xor_zero]
    rw [← hback x, ← hback y]
    exact IlBinop.Arith.xor.congr (IlBinop.Arith.add.congr h rfl) rfl

theorem testBit_conv_shiftRight {n o j : Nat} (x : Int) :
    ((ilTy n false).conv x >>> o).testBit j = (decide (o + j < 8 * n) && x.testBit (o + j)) := by
  rw [CInt.testBit_shiftRight]
  exact CInt.getLsbD_ofInt (8 * n) x (o + j)

section Extend

variable {E : LiftEnv} {imms : ImmLetter → BitVec 32} {s : State Temp} {q n m w : Nat} {sa sb : Bool} {oka okb : Prop}
variable {a b : Expr} {x : Int} {k v : Val}

/-- The generator's macros: the right bits where the width leaves room in four bytes. -/
theorem lifts_xtn (signed : Bool) (ha : a.Lifts E imms s n sa x oka) (hb : b.Lifts E imms s m sb w okb) (hn : n ≤ 8)
    (hm : m = 4 ∨ m = 8) (hw : w < 64) : (FieldRow.xtn signed b a).Lifts E imms s n false
      (if signed then sxt w x else zxt w x)
      (((signed = true → 1 ≤ w) ∧ w < 32) ∧ oka ∧ okb) := by
  have hpow : (2 : Int) ^ 31 ≤ 2 ^ (8 * m) := pow_le_pow_right₀ (by decide) (by omega)
  have hfit : (ilTy m false).Fits (w : Int) := Ty.fits_unsigned.2 ⟨by omega, by omega⟩
  have hnat : ((w : Int)).toNat = w := Int.toNat_natCast w
  cases signed with
  | true =>
    have h := ha.fSXTN hb hn hm (by omega) (by omega)
    rw [hnat] at h
    exact h.range (by simp)
  | false =>
    have h := ha.fZXTN hb hn (by omega) hfit
    rw [hnat] at h
    exact h.range (by simp)

theorem cXtn_bits (signed : Bool) (hw : k.val = w) (h1 : signed = true → 1 ≤ w) (h64 : w < 64) (hx : n ≤ 8)
    (hv : BitVec.ofInt (8 * n) v.val = BitVec.ofInt (8 * n) x) : ∃ y, FieldRow.cXtn signed k v = some y ∧
      BitVec.ofInt (8 * n) y.val = BitVec.ofInt (8 * n) (if signed then sxt w x else zxt w x) := by
  have hnat : k.val.toNat = w := by omega
  cases signed with
  | true =>
    obtain ⟨y, hy, hbits⟩ := @CMacro.fSXTN_bits k v (by have := h1 rfl; omega) (by omega)
    exact ⟨y, hy, (hbits _ (by omega)).trans (hnat ▸ sxt_congr hv)⟩
  | false =>
    obtain ⟨y, hy, -, hbits⟩ := @CMacro.fZXTN_bits k v (by omega) (by omega)
    exact ⟨y, hy, (hbits _ (by omega)).trans (hnat ▸ zxt_congr hv)⟩

variable (hd : E.operand rd = .temp (.reg 0 q))

include hd in
theorem leaves_extend (signed half : Bool) : Leaves E imms s
    (.assg (var rd) (FieldRow.xtn signed (int (FieldRow.bits half)) (val rs)))
    rd (FieldRow.cXtn signed (.int (FieldRow.bits half)) (regVal E s rs)) True True := by
  have hbits : 1 ≤ FieldRow.bits half ∧ FieldRow.bits half < 32 := by cases half <;> decide
  have he := lifts_xtn signed (@Expr.Lifts.source E imms s rs _ rfl rfl)
    (Expr.Lifts.int (FieldRow.bits half)) (by decide) (.inl rfl) (by omega)
  refine leaves_assg rfl hd rfl rfl (he.range (iff_true_intro ⟨⟨fun _ => hbits.1, hbits.2⟩, trivial, trivial⟩))
    (fun _ => rfl)
    fun _ => ?_
  exact cXtn_bits (n := 4) signed (CMacro.val_int (by omega) (by omega)) (fun _ => hbits.1) (by omega) (by decide) rfl

include hd in
theorem leaves_tfrpr : Leaves E imms s (.assg (var rd) (GenMacro.fZXTN (int 8) (val ps))) rd
    (CMacro.fZXTN (.int 8) (regVal E s ps)) True True := by
  have he := lifts_xtn false (@Expr.Lifts.source E imms s ps _ rfl rfl)
    (Expr.Lifts.int 8) (by decide) (.inl rfl) (by decide)
  refine leaves_assg rfl hd rfl rfl (he.range (by simp)) (fun _ => held_zxt (by decide) (by decide)) fun _ => ?_
  exact cXtn_bits (n := 4) (w := 8) false (CMacro.val_int (by decide) (by decide)) (fun h => Bool.noConfusion h)
    (by decide) (by decide) rfl

/-- `fGETHALF` in C. -/
theorem fGETHALF_bits {j : Nat} (hj : j < 2) (hv : v.ty = sizes 4) : ∃ y, CMacro.fGETHALF j v = some y ∧
    y.ty = sizes 2 ∧ y.val = (ilTy 2 true).conv ((ilTy 4 true).conv v.val >>> (j * (8 * 2))) := by
  have hfit : (ilTy 4 true).conv v.val = v.val := by
    have := v.fits
    rw [hv] at this
    exact this
  have hbits : v.ty.promote.bits = 32 := by rw [hv]; rfl
  have hshr : ∃ z, v.shr ((j : Int) * (16 : Nat)) = some z := ⟨_, if_pos ⟨by omega, by rw [hbits]; omega⟩⟩
  obtain ⟨z, hz⟩ := hshr
  have hy : ∃ y, CMacro.fGETHALF j v = some y := ⟨_, by rw [CMacro.fGETHALF, CMacro.getPart, hz]; rfl⟩
  obtain ⟨y, hy⟩ := hy
  have hval := (reads_cval (m := .fGethalf j) rfl hy).1
  refine ⟨y, hy, (getPart_val hy (by decide) rfl (by decide)).1, ?_⟩
  rw [hval, hfit]

include hd in
theorem leaves_hlL16 (sub high : Bool) : Leaves E imms s (FieldRow.hlL16 sub high).body rd
    ((FieldRow.hlL16 sub high).result (regVal E s) (immVal imms)) True True := by
  have hj : high.toNat < 2 := by cases high <;> decide
  have ht := (@Expr.Lifts.source E imms s rt _ rfl rfl).getPart (.inl ⟨rfl, rfl, rfl⟩)
    (show 0 < 2 by decide)
  have hs := (@Expr.Lifts.source E imms s rs _ rfl rfl).getPart (.inl ⟨rfl, rfl, rfl⟩) hj
  obtain ⟨yt, hyt, htty, htval⟩ := fGETHALF_bits (v := regVal E s rt) (show 0 < 2 by decide) rfl
  obtain ⟨ys, hys, hsty, hsval⟩ := fGETHALF_bits (v := regVal E s rs) hj rfl
  have hcommon : (yt.ty.common ys.ty).bits = 32 := by rw [htty, hsty]; rfl
  rw [← htval] at ht
  rw [← hsval] at hs
  have hsum : ∃ (f : Int → Int → Int) (o : Binop) (i : IlBinop), o = (if sub then .sub else .add) ∧
      f = (if sub then (· - ·) else (· + ·)) ∧ Expr.Lifts.Arith o i f ∧ i.Arith f := by
    cases sub with
    | true => exact ⟨_, _, _, rfl, rfl, .sub, .sub⟩
    | false => exact ⟨_, _, _, rfl, rfl, .add, .add⟩
  obtain ⟨f, o, i, ho, hf, hoi, hi⟩ := hsum
  have he := lifts_xtn true (ht.arith hoi hs (by decide) (by decide) fun _ => .inl (Nat.le_refl 4))
    (Expr.Lifts.int 16) (by decide) (.inl rfl) (by decide)
  rw [ho] at he
  refine leaves_assg rfl hd rfl rfl (he.range (by simp)) (fun _ => rfl) fun _ => ?_
  rw [FieldRow.result, hyt, hys]
  refine cXtn_bits (n := 4) (w := 16) true (CMacro.val_int (by decide) (by decide)) (by decide) (by decide)
    (by decide) ?_
  rw [← hf]
  exact hi.ofInt_arith hcommon.ge

end Extend

section Wide

variable {E : LiftEnv} {imms : ImmLetter → BitVec 32} {s : State Temp} {q m : Nat} {sg : Bool} {a : Expr} {k : Val}
    {j : Nat}
variable (hd : E.operand rdd = .temp (.reg 0 q))

/-- `fSXTN(32,…)` builds its mask by a shift of four bytes by 32. -/
theorem leaves_addsp {res : Option Val} (high : Bool) : Leaves E imms s
    (FieldRow.addsp high).body rdd res False True := by
  have hj : high.toNat < 2 := by cases high <;> decide
  have hs := (@Expr.Lifts.source E imms s rss _ rfl rfl).getPart (.inr ⟨rfl, rfl, rfl⟩) hj
  have hx := lifts_xtn true hs (Expr.Lifts.int 32) (by decide) (.inl rfl) (by decide)
  have he := (@Expr.Lifts.source E imms s rtt _ rfl rfl).arith .add hx (by decide) (by decide)
    fun _ => .inl (Nat.le_refl 8)
  obtain ⟨w, hrun, -⟩ := Stmt.Runs.assg he (lift_var rdd)
  exact ⟨_, hrun.range (by simp), fun h => h.elim⟩

/-- A small amount, lifted and in C. -/
structure Amount (E : LiftEnv) (imms : ImmLetter → BitVec 32) (s : State Temp) (a : Expr) (k : Val)
    (j : Nat) : Prop where
  lifts : ∃ m sg, a.Lifts E imms s m sg j True ∧ 1 ≤ m ∧ m ≤ 8
  val : k.val = j
  small : j < 8

/-- `n*8`. -/
theorem Amount.bytes (h : Amount E imms s a k j) :
    (∃ m sg, (Expr.binop .mul a (int 8)).Lifts E imms s m sg ((j * 8 : Nat) : Int) True ∧
    m ≤ 8 ∧ (ilTy m false).Fits ((j * 8 : Nat) : Int)) ∧ (k.arith (· * ·) (.int 8)).val = ((j * 8 : Nat) : Int) := by
  obtain ⟨⟨m, sg, ha, h1, h8⟩, hval, hsmall⟩ := h
  have hpow : (2 : Int) ^ 8 ≤ 2 ^ (8 * m) := pow_le_pow_right₀ (by decide) (by omega)
  have h8v : (Val.int 8).val = 8 := CMacro.val_int (by decide) (by decide)
  constructor
  · refine ⟨m, _, ((ha.arith .mul (Expr.Lifts.int 8) h8 (by decide) fun _ => .inr (by decide)).range (by simp)).congr
      fun _ => ?_, h8, Ty.fits_unsigned.2 ⟨by omega, by omega⟩⟩
    exact congrArg _ (by push_cast; rfl)
  · rw [CMacro.arith_small (by rw [hval]; omega) (by rw [h8v]; decide) (by rw [hval, h8v]; omega), hval, h8v]
    push_cast
    rfl

/-- `(8-n)*8`. -/
theorem Amount.rest (h : Amount E imms s a k j) :
    (Expr.binop .mul (.binop .sub (int 8) a) (int 8)).Lifts E imms s 4 true (((8 - j) * 8 : Nat) : Int) True ∧
      (((Val.int 8).arith (· - ·) k).arith (· * ·) (.int 8)).val = (((8 - j) * 8 : Nat) : Int) := by
  obtain ⟨⟨m, sg, ha, h1, h8⟩, hval, hsmall⟩ := h
  have hpow : (2 : Int) ^ 8 ≤ 2 ^ (8 * m) := pow_le_pow_right₀ (by decide) (by omega)
  have h8v : (Val.int 8).val = 8 := CMacro.val_int (by decide) (by decide)
  have hsub : ((Val.int 8).arith (· - ·) k).val = 8 - (j : Int) := by
    rw [CMacro.arith_small (by rw [h8v]; decide) (by rw [hval]; omega) (by rw [hval, h8v]; omega), hval, h8v]
  have hcast : (((8 - j) * 8 : Nat) : Int) = (8 - (j : Int)) * 8 := by omega
  constructor
  · have hs := (@Expr.Lifts.int E imms s 8).arith .sub ha (by decide) h8
      fun _ => .inr (Ty.fits_unsigned.2 ⟨by omega, by omega⟩)
    refine ((hs.arith .mul (Expr.Lifts.int 8) (by decide) (by decide) fun _ => .inr (by decide)).range (by simp)).congr
      fun _ => ?_
    rw [hcast]
    rfl
  · rw [CMacro.arith_small (by rw [hsub]; omega) (by rw [h8v]; decide) (by rw [hsub, h8v]; omega), hsub, h8v, hcast]

/-- `fASHIFTL` of a pair. -/
theorem lifts_ashiftl {b : Expr} {d : OperandDecl} {x : Nat} (hdn : d.isNew = false)
    (hd8 : regSize d.regtype d.regid = 8)
    (hb : b.Lifts E imms s m sg x True) (hm : m ≤ 8) (hx : (ilTy m false).Fits (x : Int)) :
    (GenMacro.fASHIFTL (val d) b).Lifts E imms s 8 true ((regVal E s d).val * 2 ^ x) (x < 64) := by
  have h := ((@Expr.Lifts.source E imms s _ _ hdn hd8).castSame (c := .fCast8s) ⟨rfl, .inr (.inl rfl)⟩).shl hb
    (by decide) hm
  rw [hx, Int.toNat_natCast] at h
  exact h.range (by simp)

theorem lifts_lshiftr {b : Expr} {d : OperandDecl} {x : Nat} (hdn : d.isNew = false)
    (hd8 : regSize d.regtype d.regid = 8)
    (hb : b.Lifts E imms s m sg x True) (hm : m ≤ 8) (hx : (ilTy m false).Fits (x : Int)) :
    (GenMacro.fLSHIFTR (val d) b).Lifts E imms s 8 false ((ilTy 8 false).conv (regVal E s d).val >>> x) (x < 64) := by
  have h := ((@Expr.Lifts.source E imms s _ _ hdn hd8).castSame (c := .fCast8u) ⟨rfl, .inr (.inr rfl)⟩).shr hb
    (by decide) hm
  rw [hx, Int.toNat_natCast] at h
  exact h.range (by simp)

include hd in
theorem leaves_valign (h : Amount E imms s a k j) : Leaves E imms s (FieldRow.valignBody a) rdd
    (FieldRow.cValign (regVal E s) k) (j ≠ 0) True := by
  obtain ⟨⟨m, sg, hb, hm, hfit⟩, hbv⟩ := h.bytes
  obtain ⟨hr, hrv⟩ := h.rest
  have hsmall := h.small
  have hright := lifts_lshiftr (d := rss) rfl rfl hb hm hfit
  have hleft := lifts_ashiftl (d := rtt) rfl rfl hr (by decide) (Ty.fits_unsigned.2 ⟨by omega, by omega⟩)
  have he := hright.arith .or hleft (by decide) (by decide) fun _ => .inl (Nat.le_refl 8)
  refine leaves_assg rfl hd rfl rfl (he.range (show _ ↔ j ≠ 0 by omega)) (fun _ => rfl) fun hok => ?_
  obtain ⟨yr, hyr, -, hyrv⟩ := @CMacro.fLSHIFTR_bits (regVal E s rss) (k.arith (· * ·) (.int 8))
    (by rw [hbv]; omega) (by rw [hbv]; omega)
  obtain ⟨yl, hyl, hylt, hylv⟩ := @CMacro.fASHIFTL_bits (regVal E s rtt)
    (((Val.int 8).arith (· - ·) k).arith (· * ·) (.int 8)) (by rw [hrv]; omega) (by rw [hrv]; omega)
  rw [hbv, Int.toNat_natCast] at hyrv
  rw [hrv, Int.toNat_natCast] at hylv
  refine ⟨yr.arith Int.lor yl, by rw [FieldRow.cValign, hyr, hyl]; rfl, ?_⟩
  refine (IlBinop.Arith.or.ofInt_arith (CMacro.le_common _ _ (by rw [hylt]; exact Nat.le_refl 64))).trans ?_
  exact IlBinop.Arith.or.congr (congrArg _ hyrv) hylv

include hd in
theorem leaves_vsplice (h : Amount E imms s a k j) : Leaves E imms s (FieldRow.vspliceBody a) rdd
    (FieldRow.cVsplice (regVal E s) k) (j < 4) True := by
  obtain ⟨⟨m, sg, hb, hm, hfit⟩, hbv⟩ := h.bytes
  have hsmall := h.small
  have hleft := lifts_ashiftl (d := rtt) rfl rfl hb hm hfit
  have hright := (@Expr.Lifts.source E imms s rss _ rfl rfl).fZXTN hb (by decide) hm hfit
  rw [Int.toNat_natCast] at hright
  have he := hleft.arith .or hright (by decide) (by decide) fun _ => .inl (Nat.le_refl 8)
  refine leaves_assg rfl hd rfl rfl (he.range (show _ ↔ j < 4 by simp; omega)) (fun _ => rfl) fun hok => ?_
  obtain ⟨yl, hyl, hylt, hylv⟩ := @CMacro.fASHIFTL_bits (regVal E s rtt) (k.arith (· * ·) (.int 8))
    (by rw [hbv]; omega) (by rw [hbv]; omega)
  obtain ⟨yr, hyr, hyrt, hyrv⟩ := @CMacro.fZXTN_bits (k.arith (· * ·) (.int 8)) (regVal E s rss)
    (by rw [hbv]; omega) (by rw [hbv]; omega)
  rw [hbv, Int.toNat_natCast] at hylv hyrv
  refine ⟨yl.arith Int.lor yr, by rw [FieldRow.cVsplice, hyl, hyr]; rfl, ?_⟩
  refine (IlBinop.Arith.or.ofInt_arith (CMacro.le_common _ _ (by rw [hyrt]; exact Nat.le_refl 64))).trans ?_
  exact IlBinop.Arith.or.congr hylv (hyrv 64 (Nat.le_refl 64))

end Wide

section Field

variable {E : LiftEnv} {imms : ImmLetter → BitVec 32} {s : State Temp} {q : Nat} {ok fine : Prop} {res : Option Val}
    {d : OperandDecl}

theorem immVal_val {l : ImmLetter} (h : (imms l).toNat < 2 ^ 31) : (immVal imms l).val = (imms l).toNat ∧
    (imms l).toInt = (imms l).toNat := by
  have hint : (imms l).toInt = (imms l).toNat := by
    rw [BitVec.toInt_eq_toNat_cond, if_pos (by omega)]
  refine ⟨?_, hint⟩
  change (⟨31 + 1, true⟩ : Ty).conv (imms l).toInt = _
  rw [hint]
  exact Ty.fits_signed.2 ⟨by omega, by omega⟩

/-- The state after `width=uiV; offset=UiV;`. -/
def fieldState (imms : ImmLetter → BitVec 32) (s : State Temp) : State Temp :=
  (s.set 8 (.temp .width) (held 4 (imms .u).toInt)).set 8 (.temp .offset) (held 4 (imms .U).toInt)

theorem get_fieldState {l : LReg Temp} (hw : l ≠ .temp .width) (ho : l ≠ .temp .offset) (n : Nat) :
    (fieldState imms s).get n l = s.get n l := by
  rw [fieldState, State.get_set_ne ho, State.get_set_ne hw]

theorem regVal_fieldState (h : ∀ t, E.operand d = .temp t → ∃ ss r, t = .reg ss r) :
    regVal E (fieldState imms s) d = regVal E s d := by
  rw [regVal, regVal, get_fieldState]
  · intro he
    obtain ⟨ss, r, hr⟩ := h _ he
    cases hr
  · intro he
    obtain ⟨ss, r, hr⟩ := h _ he
    cases hr

theorem held_imm {l : ImmLetter} (h : (imms l).toNat < 2 ^ 31) :
    held 4 (imms l).toInt = held 8 ((imms l).toNat : Int) := by
  have h4 : (ilTy 4 false).Fits ((imms l).toNat : Int) := Ty.fits_unsigned.2 ⟨by omega, by omega⟩
  have h8 : (ilTy 8 false).Fits ((imms l).toNat : Int) := Ty.fits_unsigned.2 ⟨by omega, by omega⟩
  rw [(immVal_val h).2, held_eq_ofInt (by decide), held_eq_ofInt (by decide), h4, h8]

theorem get_field_width (h : (imms .u).toNat < 2 ^ 31) :
    (fieldState imms s).get 8 (.temp .width) = held 8 ((imms .u).toNat : Int) := by
  rw [fieldState, State.get_set_ne (by simp), held_imm h]
  exact State.get_set_same .width (by decide) _

theorem get_field_offset (h : (imms .U).toNat < 2 ^ 31) :
    (fieldState imms s).get 8 (.temp .offset) = held 8 ((imms .U).toNat : Int) := by
  rw [fieldState, held_imm h]
  exact State.get_set_same .offset (by decide) _

theorem lifts_field {x : TmpName} {t : Temp} {k : Nat} (hx : x = .width ∧ t = .width ∧ k = (imms .u).toNat ∨
    x = .offset ∧ t = .offset ∧ k = (imms .U).toNat) (hk : k < 2 ^ 31) :
    (Expr.operand (.tmp x)).Lifts E imms (fieldState imms s) 8 true k True := by
  rcases hx with ⟨rfl, rfl, rfl⟩ | ⟨rfl, rfl, rfl⟩
  · exact .register (r := .widthReg) rfl (get_field_width hk)
  · exact .register (r := .offsetReg) rfl (get_field_offset hk)

/-- `width=uiV; offset=UiV;` before a statement. -/
theorem runs_setField {t : Stmt} {s' : State Temp} (h : t.Runs E imms (fieldState imms s) s' ok) :
    (FieldRow.setField t).Runs E imms s s' ok := by
  obtain ⟨w, hw, hwv⟩ := Stmt.Runs.assg (@Expr.Lifts.imm E imms s .u) lift_width
  obtain rfl := hwv trivial
  obtain ⟨o, ho, hov⟩ := Stmt.Runs.assg
    (@Expr.Lifts.imm E imms (s.set 8 (.temp .width) (held 4 (imms .u).toInt)) .U) lift_offset
  obtain rfl := hov trivial
  exact (hw.seq (ho.seq h)).range (by simp)

theorem leaves_setField {t : Stmt} (h : Leaves E imms (fieldState imms s) t d res ok fine) :
    Leaves E imms s (FieldRow.setField t) d res ok fine := by
  obtain ⟨s', hrun, hres⟩ := h
  exact ⟨s', runs_setField hrun, hres⟩

/-- `extract` and `extractu` of a source of `n` bytes, against C's of the value `v`. -/
theorem leaves_extract {n : Nat} {src : OperandDecl} {c : Macro1} {v : Val} (hn : n = 4 ∨ n = 8)
    (hc : c.reads = some (n, 0, false) ∧ (c = .fCast4u ∨ c = .fCast8s ∨ c = .fCast8u)) (hd : d.isNew = false)
    (hdst : E.operand d = .temp (.reg 0 q)) (hdn : regSize d.regtype d.regid = n ∧ regBytes d.regtype d.regid = n)
    (hs : src.isNew = false) (hsn : regSize src.regtype src.regid = n)
    (hsrc : ∀ t, E.operand src = .temp t → ∃ ss r, t = .reg ss r)
    (hu : (imms .u).toNat < 8 * n) (hU : (imms .U).toNat < 8 * n) (signed : Bool) :
    Leaves E imms s (FieldRow.setField (.assg (var d) (FieldRow.xtn signed FieldRow.width
      (.binop .shr (.call1 c (val src)) FieldRow.offset)))) d
      (do let x ← (v.cast (sizeu n)).shr (immVal imms .U).val
          FieldRow.cXtn signed (immVal imms .u) x)
      ((signed = true → 1 ≤ (imms .u).toNat) ∧ (imms .u).toNat < 32)
      (∀ i : Nat, i < 8 * n → (imms .U).toNat ≤ i → i < (imms .U).toNat + (imms .u).toNat →
        v.val.testBit i = (regVal E s src).val.testBit i) := by
  refine leaves_setField ?_
  have hreg := @regVal_fieldState E imms s _ hsrc
  have hoff : (ilTy 8 false).Fits ((imms .U).toNat : Int) := Ty.fits_unsigned.2 ⟨by omega, by omega⟩
  have hsh := ((@Expr.Lifts.source E imms (fieldState imms s) _ _ hs hsn).castSame hc).shr
    (lifts_field (.inr ⟨rfl, rfl, rfl⟩) (by omega)) (by omega) (by decide)
  rw [hoff, Int.toNat_natCast, hreg] at hsh
  have he := lifts_xtn signed hsh (lifts_field (.inl ⟨rfl, rfl, rfl⟩) (by omega)) (by omega) (.inr rfl) (by omega)
  refine leaves_assg_iff hd hdst hdn.1 hdn.2 (he.range (by simp [hU])) (fun _ => rfl) fun hok => ?_
  obtain ⟨hUv, -⟩ := @immVal_val imms .U (by omega)
  obtain ⟨x, hx, hxv⟩ := CMacro.shr_cast (v := v) (k := (immVal imms .U).val) hn (by omega) (by omega)
  rw [hUv, Int.toNat_natCast] at hxv
  obtain ⟨y, hy, hyb⟩ := cXtn_bits (n := n) (x := x.val) signed (immVal_val (by omega)).1 hok.1 (by omega)
    (by omega) rfl
  refine ⟨y, by rw [hx]; exact hy, ?_⟩
  rw [hyb, ofInt_xt_iff signed (by omega), hxv]
  constructor
  · intro h i hi hlo hhi
    have := h (i - (imms .U).toNat) (by omega)
    rwa [testBit_conv_shiftRight, testBit_conv_shiftRight, Nat.add_sub_cancel' hlo, decide_eq_true hi, Bool.true_and,
      Bool.true_and] at this
  · intro h j hj
    rw [testBit_conv_shiftRight, testBit_conv_shiftRight]
    by_cases hi : (imms .U).toNat + j < 8 * n
    · rw [h _ hi (Nat.le_add_right _ _) (by omega)]
    · rw [decide_eq_false hi, Bool.false_and, Bool.false_and]

/-- `mask`. -/
theorem leaves_mask (hd : E.operand rd = .temp (.reg 0 q)) (hu : (imms .u).toNat < 32) (hU : (imms .U).toNat < 32) :
    Leaves E imms s FieldRow.s2Mask.body rd (FieldRow.s2Mask.result (regVal E s) (immVal imms)) True True := by
  obtain ⟨huv, hui⟩ := @immVal_val imms .u (by omega)
  obtain ⟨hUv, hUi⟩ := @immVal_val imms .U (by omega)
  have hfit (k : Nat) (hk : k < 32) : (ilTy 4 false).Fits (k : Int) := Ty.fits_unsigned.2 ⟨by omega, by omega⟩
  have hui' := @Expr.Lifts.imm E imms s .u
  have hUi' := @Expr.Lifts.imm E imms s .U
  rw [hui] at hui'
  rw [hUi] at hUi'
  have hmask := (hui'.mask (by decide) (hfit _ hu)).shl hUi' (n := 4) (by decide) (by decide)
  rw [hfit _ hU, Int.toNat_natCast, Int.toNat_natCast] at hmask
  refine leaves_assg rfl hd rfl rfl (hmask.range (by simp [hu, hU])) (fun _ => rfl) fun _ => ?_
  have hone : (Val.int 1).val = 1 := CMacro.val_int (by decide) (by decide)
  obtain ⟨one, hshl, hty, hbits⟩ := CMacro.shl_bits (v := Val.int 1) (k := (immVal imms .u).val) (by omega)
    (show _ < ((32 : Nat) : Int) by omega)
  have h32 : (one.arith (· - ·) (.int 1)).ty.promote.bits = 32 := by
    rw [show (one.arith (· - ·) (.int 1)).ty = one.ty.common ⟨32, true⟩ from rfl, hty]
    rfl
  have hcommon : 32 ≤ (one.ty.common (Val.int 1).ty).bits := by
    rw [hty]
    exact Nat.le_refl 32
  obtain ⟨y, hy, -, hyb⟩ := CMacro.shl_bits (v := one.arith (· - ·) (.int 1)) (k := (immVal imms .U).val) (by omega)
    (by rw [h32]; omega)
  refine ⟨y, by rw [FieldRow.result, hshl]; exact hy, ?_⟩
  rw [h32, hUv, Int.toNat_natCast, CInt.ofInt_mul_two_pow] at hyb
  rw [hone, huv, Int.toNat_natCast, one_mul] at hbits
  change BitVec.ofInt 32 y.val = BitVec.ofInt 32 _
  have hsub : BitVec.ofInt 32 (one.val - 1) = BitVec.ofInt 32 (2 ^ (imms .u).toNat - 1) :=
    IlBinop.Arith.sub.congr hbits rfl
  rw [hyb, CInt.ofInt_mul_two_pow, IlBinop.Arith.sub.ofInt_arith hcommon, hone, hsub]

/-- The state behind the first word of a split, and behind both. -/
theorem lifts_split {a : Expr} {m k : Nat} {sg : Bool} (ha : a.Lifts E imms s m sg k True) (hm : m ≤ 8) (hk : k < 32)
    (hfit : (ilTy m false).Fits (k : Int)) :
    (Expr.binop .shr (.call1 .fCast4u (val rs)) a).Lifts E imms s 4 false
      ((ilTy 4 false).conv (regVal E s rs).val >>> k) True ∧
      (GenMacro.fZXTN a (val rs)).Lifts E imms s 4 false (zxt k (regVal E s rs).val) True := by
  have hsrc := @Expr.Lifts.source E imms s rs _ rfl rfl
  have hsh := (hsrc.castSame (c := .fCast4u) ⟨rfl, .inl rfl⟩).shr ha (by decide) hm
  have hz := hsrc.fZXTN ha (by decide) hm hfit
  rw [hfit, Int.toNat_natCast] at hsh
  rw [Int.toNat_natCast] at hz
  exact ⟨hsh.range (by simp [hk]), hz.range (by simp [hk])⟩

/-- `bitsplit`, the amount lifted to the same value in both states. -/
theorem leaves_split {a : Expr} {m k : Nat} {sg : Bool} {kv : Val} (hd : E.operand rdd = .temp (.reg 0 q))
    (hs : E.operand rs ≠ .temp (.reg 0 q))
    (ha : ∀ w, a.Lifts E imms (s.set 8 (.temp (.reg 0 q)) w) m sg k True) (ha' : a.Lifts E imms s m sg k True)
      (hm : m ≤ 8)
    (hk : k < 32) (hfit : (ilTy m false).Fits (k : Int)) (hkv : kv.val = k) :
    Leaves E imms s (FieldRow.splitBody a) rdd (FieldRow.cSplit (regVal E s) kv) True True := by
  have hplace : resolveReg E.regs E.insnNum (.oldV rdd.regtype rdd.regid) = .temp (.reg 0 q) := hd
  obtain ⟨hhigh, -⟩ := lifts_split ha' hm hk hfit
  obtain ⟨w, hrun, hw⟩ := Stmt.Runs.setWord (k := 1) (by decide) hhigh (lift_var rdd)
    (get_regVal (E := E) (s := s) rdd (n := 8) (by decide))
  have hsame : regVal E (s.set 8 (.temp (.reg 0 q)) w) rs = regVal E s rs := by
    rw [regVal, regVal, State.get_set_ne hs]
  obtain ⟨-, hlow⟩ := lifts_split (ha w) hm hk hfit
  rw [hsame] at hlow
  rw [hplace] at hrun
  have hget : (s.set 8 (.temp (.reg 0 q)) w).get 8 (resolveReg E.regs E.insnNum (.oldV rdd.regtype rdd.regid)) =
      held 8 (setWord 1 (regVal E s rdd).val ((ilTy 4 false).conv (regVal E s rs).val >>> k)) := by
    rw [hplace, hw trivial]
    exact State.get_set_same _ (by decide) _
  obtain ⟨w', hrun', hw'⟩ := Stmt.Runs.setWord (k := 0) (by decide) hlow (lift_var rdd) hget
  refine ⟨_, (hrun.seq hrun').range (by simp), fun _ => iff_of_true ?_ trivial⟩
  obtain ⟨high, hhy, hhv⟩ := CMacro.shr_cast (v := regVal E s rs) (k := kv.val) (n := 4) (.inl rfl) (by omega)
    (by omega)
  obtain ⟨low, hly, -, hlv⟩ := @CMacro.fZXTN_bits kv (regVal E s rs) (by omega) (by omega)
  obtain ⟨x, hx, hxt, hxb⟩ := @CMacro.fSETWORD_bits 1 (regVal E s rdd) high (by decide) rfl
  obtain ⟨y, hy, -, hyb⟩ := @CMacro.fSETWORD_bits 0 x low (by decide) hxt
  rw [hkv, Int.toNat_natCast] at hhv hlv
  refine ⟨y, by rw [FieldRow.cSplit, hhy, hly]; simp only [Option.bind_eq_bind, Option.bind_some, hx, hy], ?_⟩
  rw [hd, hplace, hw' trivial]
  refine (State.get_set_same _ (by decide) _).trans (held_congr (Eq.trans (setWord_congr ?_ ?_) hyb.symm))
  · rw [← hhv]
    exact hxb.symm
  · exact (hlv 64 (Nat.le_refl 64)).symm

/-- The integer with a field of `w` bits at `o` replaced. -/
def insertField (w o : Nat) (x f : Int) : Int :=
  Int.lor (Int.land x (Int.lnot ((2 ^ w - 1) * 2 ^ o))) (Int.land f (2 ^ w - 1) * 2 ^ o)

theorem testBit_insertField {w o i : Nat} (x f : Int) (hi : i < 64) : (insertField w o x f).testBit i =
    if o ≤ i ∧ i < o + w then f.testBit (i - o) else x.testBit i := by
  have hmask (j : Nat) : (2 ^ w - 1 : Int).testBit j = decide (j < w) := by
    have hcast : ((2 ^ w - 1 : Int)) = ((2 ^ w - 1 : Nat) : Int) := by rw [Nat.cast_sub Nat.one_le_two_pow]; simp
    rw [hcast, show Int.testBit ((2 ^ w - 1 : Nat) : Int) j = (2 ^ w - 1).testBit j from rfl,
      Nat.testBit_two_pow_sub_one]
  have hshift (z : Int) : (z * 2 ^ o).testBit i = (decide (o ≤ i) && z.testBit (i - o)) := by
    have h := congrArg (BitVec.getLsbD · i) (CInt.ofInt_mul_two_pow 64 z o)
    simp only [CInt.getLsbD_ofInt, BitVec.getLsbD_shiftLeft, decide_eq_true hi, Bool.true_and,
      decide_eq_true (show i - o < 64 by omega)] at h
    rw [h]
    by_cases ho : o ≤ i
    · simp [ho]
    · simp [ho, Nat.lt_of_not_le ho]
  rw [insertField, Int.testBit_lor, Int.testBit_land, Int.testBit_lnot, hshift, hshift, Int.testBit_land, hmask]
  by_cases ho : o ≤ i
  · by_cases hw : i < o + w
    · rw [if_pos ⟨ho, hw⟩, decide_eq_true ho, decide_eq_true (show i - o < w by omega)]
      simp
    · rw [if_neg (by omega), decide_eq_true ho, decide_eq_false (show ¬i - o < w by omega)]
      simp
  · rw [if_neg (by omega), decide_eq_false ho]
    simp

theorem cInsert_bits {dst src : OperandDecl} {n w o : Nat} {reg : OperandDecl → Val} {imm : ImmLetter → Val}
    (hn : n ≤ 8)
    (hd : (reg dst).ty = sizes n) (hw : (imm .u).val = w) (hw64 : w < 64) (ho : (imm .U).val = o) (ho64 : o < 64) :
    ∃ y, FieldRow.cInsert reg imm dst src = some y ∧
      BitVec.ofInt (8 * n) y.val = BitVec.ofInt (8 * n) (insertField w o (reg dst).val (reg src).val) := by
  obtain ⟨one, hone, hot, hob⟩ := CMacro.one_shl (k := (imm .u).val) (by omega) (by omega)
  have hmty : (one.arith (· - ·) (.int 1)).ty = sizes 8 := by
    change one.ty.common ⟨32, true⟩ = _
    rw [hot]
    rfl
  have hmb : BitVec.ofInt 64 (one.arith (· - ·) (.int 1)).val = BitVec.ofInt 64 (2 ^ w - 1) := by
    rw [hw, Int.toNat_natCast] at hob
    refine (IlBinop.Arith.sub.ofInt_arith (by rw [hot]; exact Nat.le_refl 64)).trans (IlBinop.Arith.sub.congr hob rfl)
  obtain ⟨hole, hhole, hht, hhb⟩ := CMacro.shl_bits (v := one.arith (· - ·) (.int 1)) (k := (imm .U).val) (by omega)
    (by rw [hmty, ho]; exact Int.ofNat_lt.2 ho64)
  rw [hmty] at hht hhb
  have h64 (v : Val) : 64 ≤ (v.ty.common (sizes 8)).bits := CMacro.le_common _ _ (Nat.le_refl 64)
  have hfty : ((reg src).arith Int.land (one.arith (· - ·) (.int 1))).ty = (reg src).ty.common (sizes 8) := by
    rw [← hmty]; rfl
  have hfprom : 64 ≤ ((reg src).ty.common (sizes 8)).promote.bits := by
    rw [promote_of_wide (by have := h64 (reg src); omega)]
    exact h64 _
  obtain ⟨field, hfield, hft, hfb⟩ := CMacro.shl_bits (v := (reg src).arith Int.land (one.arith (· - ·) (.int 1)))
    (k := (imm .U).val) (by omega) (by rw [hfty, ho]; exact Int.ofNat_lt.2 (Nat.lt_of_lt_of_le ho64 hfprom))
  rw [hfty] at hft hfb
  refine ⟨_, by rw [FieldRow.cInsert, hone]; simp only [Option.bind_eq_bind, Option.bind_some, hhole, hfield]; rfl, ?_⟩
  have hcast (z : Val) : BitVec.ofInt (8 * n) (z.cast (reg dst).ty).val = BitVec.ofInt (8 * n) z.val := by
    rw [hd]
    exact (sizes n).ofInt_conv z.val
  have hle : 8 * n ≤ 64 := by omega
  have hfp : 64 ≤ field.ty.promote.bits := by
    rw [hft, Ty.promote_promote]
    exact hfprom
  have hup : 64 ≤ (hole.unary Int.lnot).ty.promote.bits := by
    change 64 ≤ hole.ty.promote.promote.bits
    rw [hht]
    exact Nat.le_refl 64
  refine (hcast _).trans ((IlBinop.Arith.or.ofInt_arith (Nat.le_trans hle (CMacro.le_common _ _ hfp))).trans
    (IlBinop.Arith.or.congr ((hcast _).trans ?_) ?_))
  · refine (IlBinop.Arith.and.ofInt_arith (Nat.le_trans hle (CMacro.le_common _ _ hup))).trans
      (IlBinop.Arith.and.congr rfl ?_)
    refine CInt.ofInt_mono hle ?_
    have hnot : BitVec.ofInt 64 (hole.unary Int.lnot).val = BitVec.ofInt 64 (Int.lnot hole.val) := by
      change BitVec.ofInt 64 (hole.ty.promote.conv (Int.lnot hole.val)) = _
      rw [hht]
      exact (sizes 8).ofInt_conv _
    have hhv : BitVec.ofInt 64 hole.val = BitVec.ofInt 64 ((2 ^ w - 1) * 2 ^ o) := by
      change BitVec.ofInt 64 _ = BitVec.ofInt 64 _ at hhb
      rw [hhb, ho, Int.toNat_natCast, CInt.ofInt_mul_two_pow, CInt.ofInt_mul_two_pow, hmb]
    rw [hnot, CInt.ofInt_lnot, CInt.ofInt_lnot, hhv]
  · refine CInt.ofInt_mono hle ((CInt.ofInt_mono hfprom hfb).trans ?_)
    have hand : BitVec.ofInt 64 ((reg src).arith Int.land (one.arith (· - ·) (.int 1))).val =
        BitVec.ofInt 64 (Int.land (reg src).val (2 ^ w - 1)) :=
      (IlBinop.Arith.and.ofInt_arith (by rw [hmty]; exact h64 _)).trans (IlBinop.Arith.and.congr rfl hmb)
    rw [ho, Int.toNat_natCast, CInt.ofInt_mul_two_pow, CInt.ofInt_mul_two_pow, hand]

end Field
end Hex
