import BinjaHexagon.FieldExact
/-!
# FieldInsn — the bit-field instructions, lifted whole

`insert` and the rows whose amount is a predicate or a register, and then every row at once, each variable in a place
of its own: C's result is left where the fields suit the generator's masks (`FieldRow.Fits`), and only there.
-/
namespace Hex

open Bytes (norm)
open CInt (Ty Val)
open Flow (Block)
open Opcodes (rd rs rt rx rdd rss rtt rxx pu puNew ps val var int add)

section Insert

variable {E : LiftEnv} {imms : ImmLetter → BitVec 32} {s : State Temp} {q : Nat} {d src : OperandDecl}

theorem State.getLsbD_get_set_low {τ : Type} [DecidableEq τ] (s : State τ) (t : τ) (v : BitVec 64) {i : Nat}
    (hi : i < 64) :
    ((s.set 4 (.temp t) v).get 8 (.temp t)).getLsbD i =
      if i < 32 then v.getLsbD i else (s.get 8 (.temp t)).getLsbD i := by
  rw [State.get, State.get, Bytes.getLsbD_join _ _ _ (by decide), Bytes.getLsbD_join _ _ _ (by decide),
    decide_eq_true (show i < 8 * 8 by omega), Bool.true_and, Bool.true_and]
  change BitVec.getLsbD (if t = t ∧ i / 8 < 4 then Bytes.byte v (i / 8) else s.temp t (i / 8)) (i % 8) = _
  by_cases h : i < 32
  · rw [if_pos ⟨rfl, by omega⟩, if_pos h, Bytes.getLsbD_byte, decide_eq_true (Nat.mod_lt i (by decide)), Bool.true_and,
      Nat.div_add_mod]
  · rw [if_neg (by omega), if_neg h]

theorem testBit_regVal {i : Nat} (hi : i < 8 * regBytes d.regtype d.regid) :
    (regVal E s d).val.testBit i = (s.get (regBytes d.regtype d.regid) (E.operand d)).getLsbD i := by
  have hb := (regSize_le d.regtype d.regid).2.1
  have hget := get_regVal (E := E) (s := s) d (Nat.le_refl (regBytes d.regtype d.regid))
  rw [hget, getLsbD_held, decide_eq_true hi, decide_eq_true (show i < 64 by omega), Bool.true_and, Bool.true_and]

/-- `((fCONSTLL(1)<<width)-1)`, its sixty-four bits shifted by `offset`. -/
theorem lifts_fieldMask {w : Nat} (hwidth : s.get 8 (.temp .width) = held 8 w) (hw : w < 64) :
    FieldRow.fieldMask.Lifts E imms s 8 true (2 ^ w - 1) True := by
  have hfit : (ilTy 8 false).Fits (w : Int) := Ty.fits_unsigned.2 ⟨by omega, by omega⟩
  have hone : (ilTy 4 true).Fits (1 : Int) := by decide
  have h1 := (@Expr.Lifts.int E imms s 1).cast8s
  rw [Nat.cast_one, hone] at h1
  have hshl := h1.shl (Expr.Lifts.register (o := .tmp .width) (r := .widthReg) (x := w) rfl hwidth) (by decide)
    (by decide)
  rw [hfit, Int.toNat_natCast, one_mul] at hshl
  have hsub := hshl.arith .sub (Expr.Lifts.int 1) (by decide) (by decide) fun _ => .inr (by decide)
  exact hsub.range (by simp [hw])

/-- The two assignments of `insert`: the field is replaced in the low four bytes of the destination. -/
theorem runs_insert {n : Nat} (hn : n = 4 ∨ n = 8) (hd : d.isNew = false) (hdst : E.operand d = .temp (.reg 0 q))
    (hd4 : regSize d.regtype d.regid = 4) (hs : src.isNew = false) (hsn : regSize src.regtype src.regid = n)
    (hsd : E.operand src ≠ .temp (.reg 0 q)) (hsrc : ∀ t, E.operand src = .temp t → ∃ ss r, t = .reg ss r)
    (hu : (imms .u).toNat < 64) (hU : (imms .U).toNat < 8 * n) :
    ∃ w, (FieldRow.insertBody d src).Runs E imms s
      (((fieldState imms s).set 4 (.temp (.reg 0 q)) w).set 4 (.temp (.reg 0 q))
      (held 4 (insertField (imms .u).toNat (imms .U).toNat (regVal E s d).val (regVal E s src).val))) True := by
  have hoff : (ilTy 8 false).Fits ((imms .U).toNat : Int) := Ty.fits_unsigned.2 ⟨by omega, by omega⟩
  have hname : d.name = .oldV d.regtype d.regid := by rw [OperandDecl.name, hd]; rfl
  have hplace : resolveReg E.regs E.insnNum (.oldV d.regtype d.regid) = .temp (.reg 0 q) := hname ▸ hdst
  have hlift : liftOperand (var d) = .register 4 (.oldV d.regtype d.regid) := by rw [← hd4]; rfl
  have hregd : regVal E (fieldState imms s) d = regVal E s d :=
    regVal_fieldState fun t ht => ⟨0, q, by rw [hdst] at ht; cases ht; rfl⟩
  have hregs : regVal E (fieldState imms s) src = regVal E s src := regVal_fieldState hsrc
  -- `dst &= ~(mask << offset)`
  have hhole := ((@lifts_fieldMask E imms _ _ (@get_field_width imms s (by omega)) hu).shl
    (lifts_field (.inr ⟨rfl, rfl, rfl⟩) (by omega)) (by decide) (by decide)).bitNot (by decide)
  rw [hoff, Int.toNat_natCast] at hhole
  have hand := ((@Expr.Lifts.source E imms (fieldState imms s) _ _ hd hd4).arith .and hhole (by decide)
    (by decide) fun _ => .inl (by decide)).range (show _ ↔ True by simp; omega)
  obtain ⟨w₁, hrun₁, hw₁⟩ := Stmt.Runs.assg hand hlift
  rw [hplace] at hrun₁
  have hstep₁ := @Stmt.Runs.assgBinop _ _ _ _ _ _ _ .and _ hrun₁ fun _ _ => rfl
  -- `dst |= (src & mask) << offset`
  have hscratch {t : Temp} (ht : t ≠ .reg 0 q) (k : Nat) :
      ((fieldState imms s).set 4 (.temp (.reg 0 q)) w₁).get k (.temp t) = (fieldState imms s).get k (.temp t) :=
    State.get_set_ne (fun h => ht (LReg.temp.inj h)) 4 k w₁
  have hold : (val d).Lifts E imms ((fieldState imms s).set 4 (.temp (.reg 0 q)) w₁) 4 true _ True :=
    .register hlift (by rw [hplace, hw₁ trivial]; exact State.get_set_same _ (by decide) _)
  have hsame : regVal E ((fieldState imms s).set 4 (.temp (.reg 0 q)) w₁) src = regVal E s src := by
    rw [← hregs, regVal, regVal, State.get_set_ne hsd]
  have hfield := ((@Expr.Lifts.source E imms ((fieldState imms s).set 4 (.temp (.reg 0 q)) w₁) _ _ hs hsn).arith
    .and (lifts_fieldMask ((hscratch (t := .width) Temp.noConfusion 8).trans (get_field_width (by omega))) hu)
      (by omega) (by decide) fun _ => .inl (by omega)).shl
    (.register (o := .tmp .offset) (r := .offsetReg) (x := (imms .U).toNat) rfl
      ((hscratch (t := .offset) Temp.noConfusion 8).trans (get_field_offset (by omega)))) (by omega) (by decide)
  rw [hoff, Int.toNat_natCast, hsame] at hfield
  have hor := (hold.arith .or hfield (by decide) (by omega) fun _ => .inl (by omega)).range (show _ ↔ True by simp [hU])
  obtain ⟨w₂, hrun₂, hw₂⟩ := Stmt.Runs.assg hor hlift
  rw [hplace] at hrun₂
  have hstep₂ := @Stmt.Runs.assgBinop _ _ _ _ _ _ _ .or _ hrun₂ fun _ _ => rfl
  rw [hw₂ trivial, hregd] at hstep₂
  exact ⟨w₁, runs_setField ((hstep₁.seq hstep₂).range (by simp))⟩

/-- `insert` of a register. -/
theorem leaves_insert (hdst : E.operand rx = .temp (.reg 0 q)) (hsd : E.operand rs ≠ .temp (.reg 0 q))
    (hsrc : ∀ t, E.operand rs = .temp t → ∃ ss r, t = .reg ss r) (hu : (imms .u).toNat < 32)
      (hU : (imms .U).toNat < 32) :
    Leaves E imms s (FieldRow.insertBody rx rs) rx (FieldRow.cInsert (regVal E s) (immVal imms) rx rs) True True := by
  obtain ⟨w, hrun⟩ := @runs_insert E imms s q rx rs 4 (.inl rfl) rfl hdst rfl rfl rfl hsd hsrc (by omega) (by omega)
  obtain ⟨y, hy, hbits⟩ := @cInsert_bits rx rs 4 _ _ (regVal E s) (immVal imms) (by decide) rfl
    (immVal_val (by omega)).1
    (by omega) (immVal_val (by omega)).1 (by omega)
  refine ⟨_, hrun, fun _ => iff_of_true ⟨y, hy, ?_⟩ trivial⟩
  rw [hdst]
  exact (State.get_set_same _ (by decide) _).trans (held_congr hbits).symm

/-- `insert` of a pair, lifted at four bytes, against C's with `reg`: the field is replaced in the low word alone. -/
theorem leaves_insertp {reg : OperandDecl → Val} (hdst : E.operand rxx = .temp (.reg 0 q))
    (hsd : E.operand rss ≠ .temp (.reg 0 q)) (hsrc : ∀ t, E.operand rss = .temp t → ∃ ss r, t = .reg ss r)
    (hu : (imms .u).toNat < 64) (hU : (imms .U).toNat < 64) (hty : (reg rxx).ty = sizes 8)
    (hold : (reg rxx).val = (regVal E s rxx).val) :
    Leaves E imms s (FieldRow.insertBody rxx rss) rxx (FieldRow.cInsert reg (immVal imms) rxx rss) True
      (∀ i : Nat, i < 64 → (imms .U).toNat ≤ i → i < (imms .U).toNat + (imms .u).toNat →
        (reg rss).val.testBit (i - (imms .U).toNat) =
          if i < 32 then (regVal E s rss).val.testBit (i - (imms .U).toNat) else (regVal E s rxx).val.testBit i) := by
  obtain ⟨w, hrun⟩ := @runs_insert E imms s q rxx rss 8 (.inr rfl) rfl hdst rfl rfl rfl hsd hsrc hu hU
  obtain ⟨y, hy, hbits⟩ := @cInsert_bits rxx rss 8 _ _ reg (immVal imms) (by decide) hty (immVal_val (by omega)).1
    hu (immVal_val (by omega)).1 hU
  refine ⟨_, hrun, fun _ => ?_⟩
  have hread {i : Nat} (hi : i < 64) : (((((fieldState imms s).set 4 (.temp (.reg 0 q)) w).set 4 (.temp (.reg 0 q))
      (held 4 (insertField (imms .u).toNat (imms .U).toNat (regVal E s rxx).val (regVal E s rss).val))).get 8
        (E.operand rxx)).getLsbD i) =
      if i < 32 then (insertField (imms .u).toNat (imms .U).toNat (regVal E s rxx).val (regVal E s rss).val).testBit i
      else (regVal E s rxx).val.testBit i := by
    rw [hdst, State.getLsbD_get_set_low _ _ _ hi]
    by_cases h : i < 32
    · rw [if_pos h, if_pos h, getLsbD_held, decide_eq_true hi, decide_eq_true (show i < 8 * 4 from h), Bool.true_and,
        Bool.true_and]
    · rw [if_neg h, if_neg h, State.getLsbD_get_set_low _ _ _ hi, if_neg h, get_fieldState (by simp) (by simp), ← hdst]
      exact (testBit_regVal (d := rxx) hi).symm
  have hfield {i : Nat} (hi : i < 64) : (held 8 y.val).getLsbD i =
      (insertField (imms .u).toNat (imms .U).toNat (regVal E s rxx).val (reg rss).val).testBit i := by
    rw [held_congr hbits, getLsbD_held, decide_eq_true hi, Bool.true_and, Bool.true_and, hold]
  constructor
  · rintro ⟨z, hz, hget⟩ i hi hlo hhi
    obtain rfl : y = z := Option.some.inj (hy.symm.trans hz)
    have hbit := congrArg (BitVec.getLsbD · i) hget
    have hin : (imms .U).toNat ≤ i ∧ i < (imms .U).toNat + (imms .u).toNat := ⟨hlo, hhi⟩
    change BitVec.getLsbD (State.get 8 _ _) i = BitVec.getLsbD (held 8 y.val) i at hbit
    rw [hread hi, hfield hi, testBit_insertField _ _ hi, testBit_insertField _ _ hi, if_pos hin, if_pos hin] at hbit
    exact hbit.symm
  · intro h
    refine ⟨y, hy, BitVec.eq_of_getLsbD_eq fun i hi => ?_⟩
    change BitVec.getLsbD (State.get 8 _ _) i = BitVec.getLsbD (held 8 y.val) i
    rw [hread hi, hfield hi, testBit_insertField _ _ hi, testBit_insertField _ _ hi]
    by_cases hin : (imms .U).toNat ≤ i ∧ i < (imms .U).toNat + (imms .u).toNat
    · rw [if_pos hin, if_pos hin, h i hi hin.1 hin.2]
    · rw [if_neg hin, if_neg hin, ite_self]

end Insert

section Amounts

variable {E : LiftEnv} {imms : ImmLetter → BitVec 32} {s : State Temp} {q : Nat}

theorem amount_imm (h : (imms .u).toNat < 8) : Amount E imms s (FieldRow.imm .u) (immVal imms .u) (imms .u).toNat where
  lifts := ⟨4, true, (@immVal_val imms .u (by omega)).2 ▸ Expr.Lifts.imm .u, by decide, by decide⟩
  val := (immVal_val (by omega)).1
  small := h

theorem land_seven (n : Nat) : Int.land (n : Int) 7 = (n % 8 : Nat) :=
  congrArg Int.ofNat (Nat.and_two_pow_sub_one_eq_mod n 3)

theorem amount_pred : Amount E imms s FieldRow.predAmount (FieldRow.cPredAmount (regVal E s))
    ((regVal E s pu).val.toNat % 8) := by
  have hfit : (⟨8, false⟩ : Ty).Fits (regVal E s pu).val := (regVal E s pu).fits
  obtain ⟨h0, h1⟩ := Ty.fits_unsigned.1 hfit
  have hval : (regVal E s pu).val = ((regVal E s pu).val.toNat : Int) := (Int.toNat_of_nonneg h0).symm
  have h7 : (Val.int 7).val = 7 := CMacro.val_int (by decide) (by decide)
  have hand : Int.land (regVal E s pu).val 7 = ((regVal E s pu).val.toNat % 8 : Nat) := by
    rw [← land_seven, ← hval]
  refine ⟨⟨1, false, ?_, by decide, by decide⟩, ?_, Nat.mod_lt _ (by decide)⟩
  · have h := (@Expr.Lifts.source E imms s pu _ rfl rfl).arith .and (Expr.Lifts.int 7) (by decide) (by decide)
      fun _ => .inl (by decide)
    exact (h.range (by simp)).congr fun _ => congrArg _ hand
  · rw [FieldRow.cPredAmount, CMacro.arith_small ⟨h0, by omega⟩ (by rw [h7]; decide) (by rw [h7, hand]; omega), h7,
      hand]

/-- What a mask leaves is a number below the next power of two. -/
theorem zxt_natCast (w : Nat) (x : Int) : ∃ k < 2 ^ w, zxt w x = (k : Nat) := by
  have hmask : ((2 ^ w - 1 : Int)) = ((2 ^ w - 1 : Nat) : Int) := by rw [Nat.cast_sub Nat.one_le_two_pow]; simp
  rw [zxt, hmask]
  cases x with
  | ofNat n => exact ⟨n &&& (2 ^ w - 1), Nat.and_lt_two_pow n (Nat.sub_lt (by positivity) (by decide)), rfl⟩
  | negSucc n =>
    refine ⟨Nat.ldiff (2 ^ w - 1) n, Nat.lt_pow_two_of_testBit _ fun i hi => ?_, rfl⟩
    rw [Nat.testBit_ldiff, Nat.testBit_two_pow_sub_one, decide_eq_false (Nat.not_lt.2 hi), Bool.false_and]

theorem lift_shamt : liftOperand (.tmp .shamt) = .register 8 .shamtReg := rfl

/-- `bitsplit` by an immediate. -/
theorem leaves_bitspliti (hd : E.operand rdd = .temp (.reg 0 q)) (hs : E.operand rs ≠ .temp (.reg 0 q))
    (hu : (imms .u).toNat < 32) :
    Leaves E imms s FieldRow.a4Bitspliti.body rdd (FieldRow.a4Bitspliti.result (regVal E s) (immVal imms)) True
        True := by
  have hfit : (ilTy 4 false).Fits ((imms .u).toNat : Int) := Ty.fits_unsigned.2 ⟨by omega, by omega⟩
  have himm (s : State Temp) : (FieldRow.imm .u).Lifts E imms s 4 true ((imms .u).toNat : Int) True :=
    (@immVal_val imms .u (by omega)).2 ▸ @Expr.Lifts.imm E imms s .u
  exact leaves_split hd hs (fun _ => himm _) (himm s) (by decide) hu hfit (immVal_val (by omega)).1

/-- `bitsplit` by a register: the low five bits of it, kept in `shamt`. -/
theorem leaves_bitsplit (hd : E.operand rdd = .temp (.reg 0 q)) (hs : E.operand rs ≠ .temp (.reg 0 q))
    (hsrc : ∀ t, E.operand rs = .temp t → ∃ ss r, t = .reg ss r) :
    Leaves E imms s FieldRow.a4Bitsplit.body rdd (FieldRow.a4Bitsplit.result (regVal E s) (immVal imms)) True True := by
  obtain ⟨k, hk, hkz⟩ := zxt_natCast 5 (regVal E s rt).val
  have hfit4 : (ilTy 4 false).Fits (k : Int) := Ty.fits_unsigned.2 ⟨by omega, by omega⟩
  have hfit8 : (ilTy 8 false).Fits (k : Int) := Ty.fits_unsigned.2 ⟨by omega, by omega⟩
  have he := (lifts_xtn false (@Expr.Lifts.source E imms s rt _ rfl rfl) (Expr.Lifts.int 5) (by decide) (.inl rfl)
    (by decide)).range (show _ ↔ True by simp)
  obtain ⟨w, hrun, hw⟩ := Stmt.Runs.assg he lift_shamt
  have hwv : w = held 8 (k : Int) := by
    rw [hw trivial, held_eq_ofInt (by decide), held_eq_ofInt (by decide), hfit8]
    exact congrArg _ ((congrArg _ hkz).trans hfit4)
  have hshamt (s' : State Temp) (h : s'.get 8 (.temp .shamt) = held 8 (k : Int)) :
      FieldRow.shamt.Lifts E imms s' 8 true k True := .register (o := .tmp .shamt) (r := .shamtReg) rfl h
  have hset : (s.set 8 (.temp .shamt) w).get 8 (.temp .shamt) = held 8 (k : Int) := by
    rw [hwv]
    exact State.get_set_same _ (by decide) _
  have hsame {d : OperandDecl} (h : ∀ t, E.operand d = .temp t → ∃ ss r, t = .reg ss r) :
      regVal E (s.set 8 (.temp .shamt) w) d = regVal E s d := by
    rw [regVal, regVal, State.get_set_ne fun he => ?_]
    obtain ⟨ss, r, hr⟩ := h _ he
    cases hr
  obtain ⟨y, hy, -, hyb⟩ := @CMacro.fZXTN_bits (.int 5) (regVal E s rt) (by decide) (by decide)
  have hyv : (y.cast (sizeu 4)).val = k := hfit4.conv_eq ((hyb 32 (by decide)).trans (congrArg _ hkz))
  obtain ⟨s', hsplit, hres⟩ := leaves_split hd hs
    (fun w' => hshamt _ ((State.get_set_ne (by simp) _ _ _).trans hset)) (hshamt _ hset) (by decide) hk hfit8 hyv
  refine ⟨s', (hrun.seq hsplit).range (by simp), ?_⟩
  have hrdd : ∀ t, E.operand rdd = .temp t → ∃ ss r, t = .reg ss r := fun t ht =>
    ⟨0, q, by rw [hd] at ht; cases ht; rfl⟩
  rw [FieldRow.cSplit, hsame hsrc, hsame hrdd] at hres
  rw [FieldRow.result, hy]
  exact hres

end Amounts

namespace FieldRow

/-- When the generator's masks, which it builds of four bytes, suit the fields of the row, and no shift goes past its
operand. -/
def Fits (r : FieldRow) (reg : OperandDecl → Val) (imm : ImmLetter → Val) : Prop :=
  match r with
  | extend _ _ | condExtend _ _ _ _ | c2Tfrpr | hlL16 _ _ | s2Insert | a4Bitspliti | a4Bitsplit | s2Mask => True
  | addsp _ => False
  | s2Valignib => (imm .u).val ≠ 0
  | s2Valignrb => (reg pu).val % 8 ≠ 0
  | s2Vspliceib => (imm .u).val < 4
  | s2Vsplicerb => (reg pu).val % 8 < 4
  | s2Insertp => ∀ i : Nat, 32 ≤ i → i < 64 → (imm .U).val ≤ i → i < (imm .U).val + (imm .u).val →
      (reg rss).val.testBit (i - (imm .U).val.toNat) = (reg rxx).val.testBit i
  | extract signed _ => (signed = true → 1 ≤ (imm .u).val) ∧ (imm .u).val < 32

/-- The immediates are as wide as the encoding has them. -/
def ImmsFit (r : FieldRow) (imms : ImmLetter → BitVec 32) : Prop :=
  (∀ b ∈ r.immBits[0]?, (imms .u).toNat < 2 ^ b) ∧ ∀ b ∈ r.immBits[1]?, (imms .U).toNat < 2 ^ b

/-- The destination is a temporary of the packet, and no source is one. -/
structure Placed (r : FieldRow) (E : LiftEnv) (q : Nat) : Prop where
  dst : E.operand r.dst = .temp (.reg 0 q)
  source : ∀ d ∈ r.regs, d.kind = some .plain ∨ d.kind = some .sourcePair → ∀ t, E.operand d = .temp t →
    ∃ p, t = .reg 1 p

section Row

variable {r : FieldRow} {E : LiftEnv} {imms : ImmLetter → BitVec 32} {s : State Temp} {q : Nat}

theorem Placed.ne (h : r.Placed E q) {d : OperandDecl} (hd : d ∈ r.regs)
    (hk : d.kind = some .plain ∨ d.kind = some .sourcePair) :
    E.operand d ≠ .temp (.reg 0 q) := fun he => by
  obtain ⟨p, hp⟩ := h.source d hd hk _ he
  cases hp

theorem Placed.reg (h : r.Placed E q) {d : OperandDecl} (hd : d ∈ r.regs)
    (hk : d.kind = some .plain ∨ d.kind = some .sourcePair) :
    ∀ t, E.operand d = .temp t → ∃ ss p, t = .reg ss p := fun t ht =>
  let ⟨p, hp⟩ := h.source d hd hk t ht
  ⟨1, p, hp⟩

/-- **Every row, its assignments by themselves.** -/
theorem leaves (h : r.Placed E q) (hi : r.ImmsFit imms) : ∃ ok fine,
    Leaves E imms s r.body r.dst (r.result (regVal E s) (immVal imms)) ok fine ∧
      ((ok ∧ fine) ↔ r.Fits (regVal E s) (immVal imms)) := by
  obtain ⟨hu, hU⟩ := hi
  have hd := h.dst
  cases r with
  | extend signed half | condExtend signed half sense new => exact ⟨_, _, leaves_extend hd signed half, by simp [Fits]⟩
  | c2Tfrpr => exact ⟨_, _, leaves_tfrpr hd, by simp [Fits]⟩
  | hlL16 sub high => exact ⟨_, _, leaves_hlL16 hd sub high, by simp [Fits]⟩
  | addsp high => exact ⟨_, _, leaves_addsp high, by simp [Fits]⟩
  | s2Valignib =>
    have hu : (imms .u).toNat < 8 := hu 3 rfl
    refine ⟨_, _, leaves_valign hd (amount_imm hu), ?_⟩
    rw [Fits, (immVal_val (by omega)).1, and_true]
    omega
  | s2Valignrb =>
    have h0 : 0 ≤ (regVal E s pu).val := (Ty.fits_unsigned.1 (regVal E s pu).fits).1
    refine ⟨_, _, leaves_valign hd amount_pred, ?_⟩
    rw [Fits, and_true]
    omega
  | s2Vspliceib =>
    have hu : (imms .u).toNat < 8 := hu 3 rfl
    refine ⟨_, _, leaves_vsplice hd (amount_imm hu), ?_⟩
    rw [Fits, (immVal_val (by omega)).1, and_true]
    omega
  | s2Vsplicerb =>
    have h0 : 0 ≤ (regVal E s pu).val := (Ty.fits_unsigned.1 (regVal E s pu).fits).1
    refine ⟨_, _, leaves_vsplice hd amount_pred, ?_⟩
    rw [Fits, and_true]
    omega
  | s2Insert =>
    have hrs : rs ∈ s2Insert.regs ∧ rs.kind = some .plain := by decide
    exact ⟨_, _, leaves_insert hd (h.ne hrs.1 (.inl hrs.2)) (h.reg hrs.1 (.inl hrs.2)) (hu 5 rfl) (hU 5 rfl), by
      simp [Fits]⟩
  | s2Insertp =>
    have hrss : rss ∈ s2Insertp.regs ∧ rss.kind = some .sourcePair := by decide
    have hu : (imms .u).toNat < 64 := hu 6 rfl
    have hU : (imms .U).toNat < 64 := hU 6 rfl
    refine ⟨_, _, leaves_insertp hd (h.ne hrss.1 (.inr hrss.2)) (h.reg hrss.1 (.inr hrss.2)) hu hU rfl rfl, ?_⟩
    rw [Fits, (@immVal_val imms .u (by omega)).1, (@immVal_val imms .U (by omega)).1, true_and, Int.toNat_natCast]
    constructor
    · intro hall i h32 h64 hlo hhi
      rw [hall i h64 (by exact_mod_cast hlo) (by exact_mod_cast hhi), if_neg (by omega)]
    · intro hall i h64 hlo hhi
      by_cases h32 : i < 32
      · rw [if_pos h32]
      · rw [if_neg h32, hall i (by omega) h64 (by exact_mod_cast hlo) (by exact_mod_cast hhi)]
  | a4Bitspliti =>
    have hrs : rs ∈ a4Bitspliti.regs ∧ rs.kind = some .plain := by decide
    exact ⟨_, _, leaves_bitspliti hd (h.ne hrs.1 (.inl hrs.2)) (hu 5 rfl), by simp [Fits]⟩
  | a4Bitsplit =>
    have hrs : rs ∈ a4Bitsplit.regs ∧ rs.kind = some .plain := by decide
    exact ⟨_, _, leaves_bitsplit hd (h.ne hrs.1 (.inl hrs.2)) (h.reg hrs.1 (.inl hrs.2)), by simp [Fits]⟩
  | extract signed pair =>
    cases pair with
    | true =>
      have hrss : rss ∈ (extract signed true).regs ∧ rss.kind = some .sourcePair :=
        ⟨by cases signed <;> decide, by decide⟩
      have hu : (imms .u).toNat < 64 := hu 6 rfl
      refine ⟨_, _, leaves_extract (.inr rfl) ⟨rfl, .inr (.inr rfl)⟩ rfl hd ⟨rfl, rfl⟩ rfl rfl
        (h.reg hrss.1 (.inr hrss.2)) hu
        (hU 6 rfl) signed, ?_⟩
      rw [Fits, (@immVal_val imms .u (by omega)).1]
      simp
    | false =>
      have hrs : rs ∈ (extract signed false).regs ∧ rs.kind = some .plain := ⟨by cases signed <;> decide, by decide⟩
      have hu : (imms .u).toNat < 32 := hu 5 rfl
      refine ⟨_, _, leaves_extract (.inl rfl) ⟨rfl, .inl rfl⟩ rfl hd ⟨rfl, rfl⟩ rfl rfl (h.reg hrs.1 (.inl hrs.2)) hu
        (hU 5 rfl) signed, ?_⟩
      rw [Fits, (@immVal_val imms .u (by omega)).1]
      simp
  | s2Mask => exact ⟨_, _, leaves_mask hd (hu 5 rfl) (hU 5 rfl), by simp [Fits]⟩

end Row

end FieldRow

/-- What stays the same while the lift function of an instruction runs. -/
def Insn.liftEnv (i : Insn) (pc : BitVec 64) (n : Nat) (ctx : PacketContext) : LiftEnv :=
  ⟨(i.declared ctx).env, n, pc, i.extensionValid⟩

namespace FieldRow

/-- An instruction of the row. -/
structure Of (r : FieldRow) (i : Insn) : Prop where
  supported : i.opcode.supported = true
  regs : i.opcode.regs = r.regs
  parts : i.opcode.parts = [r.behaviour]
  imms : r.ImmsFit i.immEnv

/-- The test the assignments stand under is passed. -/
def Taken (r : FieldRow) (E : LiftEnv) (imms : ImmLetter → BitVec 32) (s : State Temp) : Prop :=
  ∀ c ∈ r.guard, ∃ v, c.transform = some v ∧ varSem.test (E.expr imms v.expr) s = true

section Instruction

variable {r : FieldRow} {i : Insn} {pc : BitVec 64} {n : Nat} {ctx : PacketContext} {s : State Temp}

theorem operand_of_place (hs : i.opcode.supported = true) {d : OperandDecl} {k : Nat} {p : Place}
    (hk : i.opcode.regs[k]? = some d)
    (hp : i.place k d = some p) : (i.liftEnv pc n ctx).operand d = p.loc :=
  Insn.resolve_place hs (q := (d.name, p)) (List.mem_append_left _ (i.operandPlaces_mem hk (by rwa [Nat.zero_add])))
    ctx n

theorem dst_mem (r : FieldRow) : r.dst ∈ r.regs ∧ ∃ rw size, r.dst.kind = some (.dest rw size) := by
  cases r with
  | condExtend signed half sense new => exact ⟨List.mem_cons_of_mem _ List.mem_cons_self, _, _, rfl⟩
  | extract signed pair => cases pair <;> exact ⟨List.mem_cons_self, _, _, rfl⟩
  | _ => exact ⟨List.mem_cons_self, _, _, rfl⟩

theorem Of.placed (h : r.Of i) : ∃ q, r.Placed (i.liftEnv pc n ctx) q := by
  obtain ⟨hmem, rw, size, hkind⟩ := r.dst_mem
  obtain ⟨k, hk⟩ := List.mem_iff_getElem?.1 hmem
  refine ⟨_, operand_of_place h.supported (h.regs ▸ hk) (by rw [Insn.place, hkind]), fun d hd hkd t ht => ?_⟩
  obtain ⟨m, hm⟩ := List.mem_iff_getElem?.1 hd
  rcases hkd with hkd | hkd
  · rw [operand_of_place h.supported (h.regs ▸ hm) (by rw [Insn.place, hkd])] at ht
    cases ht
  · rw [operand_of_place h.supported (h.regs ▸ hm) (by rw [Insn.place, hkd])] at ht
    cases ht
    exact ⟨_, rfl⟩

theorem guard_inRange {c : Expr} (hc : c ∈ r.guard) : ∃ v, c.transform = some v ∧ c.isToken = false ∧
    ∀ (E : LiftEnv) (imms : ImmLetter → BitVec 32) (s : State Temp), (E.expr imms v.expr).ShiftsInRange s := by
  cases r with
  | condExtend signed half sense new =>
    obtain rfl := Option.some.inj hc
    cases sense <;> cases new
    · exact ⟨_, rfl, rfl, fun _ _ _ => trivial⟩
    · exact ⟨_, rfl, rfl, fun _ _ _ => ⟨nofun, trivial, trivial⟩⟩
    · exact ⟨_, rfl, rfl, fun _ _ _ => trivial⟩
    · exact ⟨_, rfl, rfl, fun _ _ _ => ⟨nofun, trivial, trivial⟩⟩
  | _ => cases hc

theorem Of.semantics (h : r.Of i) {b : GBlock} (hb : r.behaviour.transform (i.opcode.attrib .bnCondJ) = some b) :
    i.semantics = b := by
  rw [Insn.semantics, OpcodeRow.gen, h.parts, processSemantics, hb]
  rfl

theorem Of.body (h : r.Of i) : (lift pc i n ctx).body =
    (i.semantics.instantiate (i.liftEnv pc n ctx).item (i.liftEnv pc n ctx).expr i.immEnv).2 := by
  rw [lift, if_pos h.supported]
  rfl

theorem Of.runs (h : r.Of i) {s' : State Temp} {ok : Prop} (hrun : r.body.Runs (i.liftEnv pc n ctx) i.immEnv s s' ok) :
    (r.Taken (i.liftEnv pc n ctx) i.immEnv s → (lift pc i n ctx).body.run varSem s = s' ∧
      ((∀ x ∈ (lift pc i n ctx).body.log varSem s, StepInRange x) ↔ ok)) ∧
    (¬r.Taken (i.liftEnv pc n ctx) i.immEnv s → (lift pc i n ctx).body.run varSem s = s ∧
      ∀ x ∈ (lift pc i n ctx).body.log varSem s, StepInRange x) := by
  obtain ⟨b, hb, -, hs', hok⟩ := hrun (i.opcode.attrib .bnCondJ)
  rw [h.body]
  cases hg : r.guard with
  | none =>
    have htaken : r.Taken (i.liftEnv pc n ctx) i.immEnv s := fun c hc => by rw [hg] at hc; cases hc
    have hbeh : r.behaviour = r.body := by rw [behaviour, hg]
    rw [h.semantics (hbeh ▸ hb)]
    exact ⟨fun _ => ⟨hs', hok⟩, fun hn => absurd htaken hn⟩
  | some c =>
    obtain ⟨v, hv, htok, hin⟩ := guard_inRange (r := r) (c := c) hg
    have hbeh : r.behaviour.transform (i.opcode.attrib .bnCondJ) = some (.ifThen v.expr b .nil) := by
      rw [behaviour, hg]
      simp only [Stmt.transform, hv, hb, htok, bind, Option.bind_some, Bool.false_eq_true, if_false, ifStmt]
    have htaken : r.Taken (i.liftEnv pc n ctx) i.immEnv s ↔
        varSem.test ((i.liftEnv pc n ctx).expr i.immEnv v.expr) s = true := by
      rw [Taken, hg]
      constructor
      · intro h
        obtain ⟨w, hw, ht⟩ := h c rfl
        obtain rfl : v = w := Option.some.inj (hv.symm.trans hw)
        exact ht
      · intro ht c' hc
        obtain rfl := Option.some.inj hc
        exact ⟨v, hv, ht⟩
    rw [h.semantics hbeh, htaken]
    refine ⟨fun ht => ⟨?_, ?_⟩, fun ht => ⟨?_, ?_⟩⟩
    · rw [Block.instantiate, Block.run, if_pos ht]
      exact hs'
    · rw [Block.instantiate, Block.log, if_pos ht, List.forall_mem_cons, ← hok]
      simp only [Block.instantiate, Block.log, List.append_nil]
      exact ⟨fun h => h.2, fun h => ⟨hin _ _ _, h⟩⟩
    · rw [Block.instantiate, Block.run, if_neg ht]
      rfl
    · rw [Block.instantiate, Block.log, if_neg ht, List.forall_mem_cons]
      simp only [Block.instantiate, Block.log, List.append_nil]
      exact ⟨hin _ _ _, fun x hx => absurd hx List.not_mem_nil⟩

end Instruction

end FieldRow
end Hex
