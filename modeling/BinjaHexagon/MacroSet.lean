import BinjaHexagon.CondInterp
import BinjaHexagon.MacroNesting
/-!
# MacroSet — `fSETHALF` and `fSETWORD`

What a lifted `fSETHALF` or `fSETWORD` leaves in each part of its destination.
-/
namespace Hex

open Bytes (norm)
open CInt (Ty Val)

/-- The `m`th part of `p` bytes. -/
def part (p m : Nat) (v : BitVec 64) : BitVec (8 * p) := (v >>> (m * (8 * p))).setWidth (8 * p)

theorem part_eq_iff {p m : Nat} {v w : BitVec 64} :
    part p m v = part p m w ↔ ∀ i < 8 * p, v.getLsbD (m * (8 * p) + i) = w.getLsbD (m * (8 * p) + i) := by
  have hbit (u : BitVec 64) (i : Nat) (hi : i < 8 * p) : (part p m u).getLsbD i = u.getLsbD (m * (8 * p) + i) := by
    rw [part, BitVec.getLsbD_setWidth, BitVec.getLsbD_ushiftRight, decide_eq_true hi, Bool.true_and]
  constructor
  · intro h i hi
    rw [← hbit v i hi, h, hbit w i hi]
  · intro h
    refine BitVec.eq_of_getLsbD_eq fun i hi => ?_
    rw [hbit v i hi, h i hi, hbit w i hi]

theorem part_eq_ofInt_iff {p m : Nat} {v : BitVec 64} {x : Int} :
    part p m v = BitVec.ofInt (8 * p) x ↔ ∀ i < 8 * p, v.getLsbD (m * (8 * p) + i) = x.testBit i := by
  have hbit (i : Nat) (hi : i < 8 * p) : (part p m v).getLsbD i = v.getLsbD (m * (8 * p) + i) := by
    rw [part, BitVec.getLsbD_setWidth, BitVec.getLsbD_ushiftRight, decide_eq_true hi, Bool.true_and]
  constructor
  · intro h i hi
    rw [← hbit i hi, h, CInt.getLsbD_ofInt, decide_eq_true hi, Bool.true_and]
  · intro h
    refine BitVec.eq_of_getLsbD_eq fun i hi => ?_
    rw [hbit i hi, h i hi, CInt.getLsbD_ofInt, decide_eq_true hi, Bool.true_and]

section SetPart

variable {E : LiftEnv} {imms : ImmLetter → BitVec 32} {st : PhysState}

theorem getLsbD_ones (n : Nat) {b i : Nat} (hn : n = 2 ^ b - 1) (hb : b ≤ 64) :
    (BitVec.ofNat 64 n).getLsbD i = decide (i < b) := by
  rw [hn, BitVec.getLsbD_ofNat, Nat.testBit_two_pow_sub_one]
  by_cases h : i < b
  · rw [decide_eq_true (show i < 64 by omega), decide_eq_true h]; rfl
  · rw [decide_eq_false h, Bool.and_false]

/-- The value `setPart` writes. -/
def setPartValue (bits mask n : Nat) (dst val : IlVal) : IlVal :=
  .binop .or dst.size
    (.binop .and dst.size dst (.unop .not dst.size (.binop .shiftLeft dst.size (.const 4 mask) (.const 1 (n * bits)))))
    (.binop .shiftLeft dst.size (.binop .and dst.size val (.const 4 mask)) (.const 1 (n * bits)))

variable (E imms st) in
/-- It is the low bits of `val` in one part, the destination's own in the others. -/
theorem getLsbD_setPart (dst val : IlVal) {p n mask : Nat} (hd : dst.size ≤ 8) (hp : p ≤ 4)
    (hm : mask = 2 ^ (8 * p) - 1)
    (hk : n * (8 * p) < 64) {i : Nat} (hi : i < 8 * dst.size) :
    ((setPartValue (8 * p) mask n dst val).bits E imms st).getLsbD i =
      if n * (8 * p) ≤ i ∧ i < n * (8 * p) + 8 * p then (val.bits E imms st).getLsbD (i - n * (8 * p))
      else (dst.bits E imms st).getLsbD i := by
  have hone : ((IlVal.const 1 (n * (8 * p))).bits E imms st).toNat = n * (8 * p) := by
    have hbits : (IlVal.const 1 (n * (8 * p))).bits E imms st =
      BitVec.setWidth 64 (BitVec.setWidth 8 (BitVec.ofNat 64 (n * (8 * p)))) := rfl
    rw [hbits, BitVec.toNat_setWidth, BitVec.toNat_setWidth, BitVec.toNat_ofNat]
    omega
  have hmask (j : Nat) : ((IlVal.const 4 mask).bits E imms st).getLsbD j = decide (j < 8 * p) := by
    have hbits : (IlVal.const 4 mask).bits E imms st = norm 4 (BitVec.ofNat 64 mask) := rfl
    rw [hbits, Bytes.getLsbD_norm, getLsbD_ones mask hm (by omega)]
    by_cases h : j < 8 * p
    · rw [decide_eq_true h, decide_eq_true (by omega), Bool.true_and]
    · rw [decide_eq_false h, Bool.and_false]
  rw [setPartValue, bits_binop, bits_binop, bits_binop, bits_unop, bits_binop, bits_binop]
  simp only [IlBinop.eval, IlUnop.eval, Bytes.getLsbD_norm, BitVec.getLsbD_or, BitVec.getLsbD_and, BitVec.getLsbD_not,
    BitVec.getLsbD_shiftLeft, hone, hmask, decide_eq_true hi, decide_eq_true (show i < 64 by omega), Bool.true_and]
  by_cases hlow : n * (8 * p) ≤ i
  · rw [decide_eq_false (show ¬i < n * (8 * p) by omega), decide_eq_true (show i - n * (8 * p) < 8 * dst.size by omega),
      Bool.not_false, Bool.true_and, Bool.true_and, Bool.true_and]
    by_cases hhigh : i < n * (8 * p) + 8 * p
    · rw [if_pos ⟨hlow, hhigh⟩, decide_eq_true (show i - n * (8 * p) < 8 * p by omega), Bool.not_true, Bool.and_false,
        Bool.false_or, Bool.and_true]
    · rw [if_neg (fun h => hhigh h.2), decide_eq_false (show ¬i - n * (8 * p) < 8 * p by omega), Bool.not_false,
        Bool.and_true, Bool.and_false, Bool.or_false]
  · rw [if_neg (fun h => hlow h.1), decide_eq_true (show i < n * (8 * p) by omega), Bool.not_true, Bool.false_and,
      Bool.false_and, Bool.not_false, Bool.and_true, Bool.or_false]

/-- A shorter write replaces the low bytes of a register and leaves the rest. -/
theorem getLsbD_get_set {s b : Nat} {r : LReg Nat} {v : BitVec 64} (hb : b ≤ 8) {i : Nat} (hi : i < 8 * b) :
    ((st.set s r v).get b r).getLsbD i = if i < 8 * s then v.getLsbD i else (st.get b r).getLsbD i := by
  have hsplit : 8 * (i / 8) + i % 8 = i := by omega
  cases r with
  | hex r =>
    rw [State.set, State.get, State.get, Bytes.getLsbD_join _ _ _ hb, Bytes.getLsbD_join _ _ _ hb, decide_eq_true hi,
      Bool.true_and, Bool.true_and, State.setReg]
    by_cases h : i < 8 * s
    · rw [if_pos h]
      dsimp only
      rw [if_pos ⟨by omega, by omega⟩, Nat.add_sub_cancel_left, Bytes.getLsbD_byte, hsplit,
        decide_eq_true (by omega), Bool.true_and]
    · rw [if_neg h]
      dsimp only
      rw [if_neg (by omega)]
  | temp t =>
    rw [State.set, State.get, State.get, Bytes.getLsbD_join _ _ _ hb, Bytes.getLsbD_join _ _ _ hb, decide_eq_true hi,
      Bool.true_and, Bool.true_and, State.setTemp]
    by_cases h : i < 8 * s
    · rw [if_pos h]
      dsimp only
      rw [if_pos ⟨rfl, by omega⟩, Bytes.getLsbD_byte, hsplit, decide_eq_true (by omega), Bool.true_and]
    · rw [if_neg h]
      dsimp only
      rw [if_neg (by omega)]

/-- `fSETHALF` and `fSETWORD`, with the bytes of a part and its mask. -/
inductive SetStmt (n : Nat) (dst : Operand) (e : Expr) : Stmt → Nat → Nat → Prop where
  | half : SetStmt n dst e (.fSethalf n dst e) 2 0xffff
  | word : SetStmt n dst e (.fSetword n dst e) 4 0xffffffff

variable {s : Stmt} {n p mask : Nat} {t : RegType} {id : RegId} {e : Expr} {v : IlVal} {x : Val} {condJ : Bool}
    {time : AlignTime}
variable {log : BodyLog} {y : Running}

/-- Running one writes that value, and is possible for a destination of two parts only. -/
theorem interp_set (hs : SetStmt n (.regOld t id) e s p mask) (hv : e.transform = some v)
    (hrun : s.interp E condJ time ⟨imms, st, log⟩ = some y) : regSize t id = 2 * p ∧
      y.st = st.set (regSize t id) (E.reg (.oldV t id))
        ((setPartValue (8 * p) mask n (.register (regSize t id) (.oldV t id)) v).bits E imms st) := by
  cases hs with
  | half =>
    rw [Stmt.interp_plain rfl, Option.map_eq_some_iff] at hrun
    obtain ⟨b, hb, rfl⟩ := hrun
    simp only [Stmt.transform, hv, bind, Option.bind_some] at hb
    obtain ⟨r, hr, hb⟩ := Option.bind_eq_some_iff.1 hb
    obtain ⟨hsz, hb⟩ := Option.ite_none_right_eq_some.1 hb
    cases hr
    cases hb
    exact ⟨hsz, rfl⟩
  | word =>
    rw [Stmt.interp_plain rfl, Option.map_eq_some_iff] at hrun
    obtain ⟨b, hb, rfl⟩ := hrun
    simp only [Stmt.transform, hv, bind, Option.bind_some] at hb
    obtain ⟨r, hr, hb⟩ := Option.bind_eq_some_iff.1 hb
    obtain ⟨hsz, hb⟩ := Option.ite_none_right_eq_some.1 hb
    cases hr
    cases hb
    exact ⟨hsz, rfl⟩

end SetPart

/-- In a register of so many bytes exactly the `n`th part of `p` bytes changed, to the low bits of `x`. -/
structure SetsPart (st st' : PhysState) (dst : LReg Nat) (bytes p n : Nat) (x : Int) : Prop where
  frame : ∃ v, ∃ s ≤ bytes, st' = st.set s dst v
  parts : ∀ m, p * (m + 1) ≤ bytes →
    part p m (st'.get bytes dst) = if m = n then BitVec.ofInt (8 * p) x else part p m (st.get bytes dst)

section Keeps

variable {E : LiftEnv} {imms : ImmLetter → BitVec 32} {st : PhysState}

/-- The low bits of a value are zeroes above its bytes: right for a part it fills, and for what is not negative. -/
theorem low_part_iff {s p : Nat} {x : Int} (hs : 1 ≤ s) (hp : p ≤ 4) (hx : Near s x) :
    (∀ i < 8 * p, (held s x).getLsbD i = x.testBit i) ↔ p ≤ s ∨ 0 ≤ x := by
  constructor
  · intro h
    by_contra hc
    obtain ⟨hlt, hneg⟩ := not_or.1 hc
    have hf : ¬(ilTy s false).Fits x := fun hf => hneg (Ty.fits_unsigned.1 hf).1
    obtain ⟨-, hlo, -⟩ := unsigned_of_not_fits hs hx hf
    have hpos : (0 : Int) < 2 ^ (8 * s) := by positivity
    have hbit := h (8 * s) (by omega)
    rw [getLsbD_held, CInt.testBit_of_bounds hlo (by omega) (Nat.le_refl _), decide_eq_true (show x < 0 by omega),
      decide_eq_false (Nat.lt_irrefl (8 * s)), Bool.false_and, Bool.and_false] at hbit
    cases hbit
  · intro h i hi
    rw [getLsbD_held, decide_eq_true (by omega), Bool.true_and]
    by_cases hlt : i < 8 * s
    · rw [decide_eq_true hlt, Bool.true_and]
    · have h0 : 0 ≤ x := h.resolve_left (by omega)
      have hhi : x < 2 ^ (8 * s) := by
        by_cases hf : (ilTy s true).Fits x
        · exact (Ty.fits_signed.1 (hf.mono (u := ⟨8 * s + 1, true⟩) (.inl ⟨Nat.le_succ _, rfl⟩))).2
        · exact (signed_of_not_fits hs hx hf).2.2
      rw [decide_eq_false hlt, Bool.false_and, CInt.testBit_of_bounds (by omega) hhi (Nat.le_of_not_lt hlt),
        decide_eq_false (by omega)]

/-- When `fSETHALF` or `fSETWORD` does what C does: the part lies within what is lifted of the destination and the value
fills it or is not negative, or it lies beyond and is there already. -/
def SetKeeps (E : LiftEnv) (st : PhysState) (t : RegType) (id : RegId) (size p n : Nat) (x : Int) : Prop :=
  p * (n + 1) ≤ regBytes t id →
    if p * (n + 1) ≤ regSize t id then p ≤ size ∨ 0 ≤ x
    else part p n (st.get (regBytes t id) (E.reg (.oldV t id))) = BitVec.ofInt (8 * p) x

variable {s : Stmt} {n p mask : Nat} {t : RegType} {id : RegId} {e : Expr} {v : IlVal} {x : Val} {condJ : Bool}
    {time : AlignTime}
variable {log : BodyLog} {y : Running}

theorem getLsbD_after_set (hs : SetStmt n (.regOld t id) e s p mask) (hv : e.transform = some v) (hk : n * (8 * p) < 64)
    (hrun : s.interp E condJ time ⟨imms, st, log⟩ = some y) {i : Nat} (hi : i < 8 * regBytes t id) :
    (y.st.get (regBytes t id) (E.reg (.oldV t id))).getLsbD i =
      if i < 8 * regSize t id ∧ n * (8 * p) ≤ i ∧ i < n * (8 * p) + 8 * p then
        (v.bits E imms st).getLsbD (i - n * (8 * p))
      else (st.get (regBytes t id) (E.reg (.oldV t id))).getLsbD i := by
  obtain ⟨hle, hb, hsz⟩ := regSize_le t id
  have hp : p ≤ 4 ∧ mask = 2 ^ (8 * p) - 1 := by
    cases hs <;> exact ⟨by decide, rfl⟩
  rw [(interp_set hs hv hrun).2, getLsbD_get_set (by omega) hi]
  by_cases hlt : i < 8 * regSize t id
  · have hold : ((IlVal.register (regSize t id) (.oldV t id)).bits E imms st).getLsbD i =
        (st.get (regBytes t id) (E.reg (.oldV t id))).getLsbD i := by
      change (st.get (regSize t id) (E.reg (.oldV t id))).getLsbD i = _
      rw [← norm_get _ hle (by omega), Bytes.getLsbD_norm, decide_eq_true hlt, Bool.true_and]
    have hset := getLsbD_setPart E imms st (.register (regSize t id) (.oldV t id)) v (show regSize t id ≤ 8 by omega)
      hp.1
      hp.2 hk hlt
    rw [if_pos hlt, hset, hold]
    simp only [hlt, true_and]
  · rw [if_neg hlt, if_neg fun h => hlt h.1]

theorem set_iff (hs : SetStmt n (.regOld t id) e s p mask) (hv : e.transform = some v) (hk : n * (8 * p) < 64)
    (hrun : s.interp E condJ time ⟨imms, st, log⟩ = some y) (ht : Typed v x.ty) (hc : Carries E imms st v x) :
    SetsPart st y.st (E.reg (.oldV t id)) (regBytes t id) p n x.val ↔ SetKeeps E st t id v.size p n x.val := by
  obtain ⟨hle, -, -⟩ := regSize_le t id
  obtain ⟨htwo, hset⟩ := interp_set hs hv hrun
  have hp : 1 ≤ p ∧ p ≤ 4 := by
    cases hs <;> decide
  have hbit {i : Nat} (hi : i < 8 * regBytes t id) := getLsbD_after_set hs hv hk hrun hi
  have hstart (m : Nat) : m * (8 * p) = 8 * (p * m) := by ring
  have hsucc (m : Nat) : p * (m + 1) = p * m + p := Nat.mul_succ p m
  have hother (m : Nat) (hm : p * (m + 1) ≤ regBytes t id) (hne : m ≠ n) :
      part p m (y.st.get (regBytes t id) (E.reg (.oldV t id))) =
          part p m (st.get (regBytes t id) (E.reg (.oldV t id))) := by
    refine part_eq_iff.2 fun i hi => ?_
    have hapart : p * m + p ≤ p * n ∨ p * n + p ≤ p * m := by
      rw [← hsucc, ← hsucc]
      rcases Nat.lt_or_gt_of_ne hne with h | h
      · exact .inl (Nat.mul_le_mul_left p h)
      · exact .inr (Nat.mul_le_mul_left p h)
    rw [hbit (by rw [hstart]; rw [hsucc] at hm; omega), if_neg (by rw [hstart, hstart]; omega)]
  have hpart (hn : p * (n + 1) ≤ regBytes t id) :
      part p n (y.st.get (regBytes t id) (E.reg (.oldV t id))) = BitVec.ofInt (8 * p) x.val ↔
        if p * (n + 1) ≤ regSize t id then p ≤ v.size ∨ 0 ≤ x.val
        else part p n (st.get (regBytes t id) (E.reg (.oldV t id))) = BitVec.ofInt (8 * p) x.val := by
    by_cases hin : p * (n + 1) ≤ regSize t id
    · rw [if_pos hin, ← low_part_iff ht.one_le hp.2 (hc.near.near ht.one_le), part_eq_ofInt_iff]
      refine forall₂_congr fun i hi => ?_
      rw [hbit (by rw [hstart]; rw [hsucc] at hn; omega),
        if_pos ⟨by rw [hstart]; rw [hsucc] at hin; omega, by omega, by omega⟩, Nat.add_sub_cancel_left, hc.holds]
    · have hbeyond : regSize t id ≤ p * n := by
        have hn2 : 2 ≤ n := by
          by_contra hlt
          refine hin ?_
          rw [htwo, Nat.mul_comm 2 p]
          exact Nat.mul_le_mul_left p (by omega)
        rw [htwo, Nat.mul_comm 2 p]
        exact Nat.mul_le_mul_left p hn2
      have hkeep : part p n (y.st.get (regBytes t id) (E.reg (.oldV t id))) =
          part p n (st.get (regBytes t id) (E.reg (.oldV t id))) := by
        refine part_eq_iff.2 fun i hi => ?_
        rw [hbit (by rw [hstart]; rw [hsucc] at hn; omega), if_neg (by rw [hstart]; omega)]
      rw [if_neg hin, hkeep]
  constructor
  · intro h hn
    exact (hpart hn).1 ((h.parts n hn).trans (if_pos rfl))
  · intro h
    refine ⟨⟨_, _, hle, hset⟩, fun m hm => ?_⟩
    by_cases hmn : m = n
    · subst hmn
      rw [if_pos rfl]
      exact (hpart hm).2 (h hm)
    · rw [if_neg hmn]
      exact hother m hm hmn

end Keeps

/-- **Nestings and `fSET*`, where C is defined.**  The parts of a nesting all stand for the integers of C if and only
if each keeps its own condition; and a `fSETHALF` or `fSETWORD` of such a nesting changes the selected part of its
destination, and nothing else, if and only if it keeps its own on top. -/
theorem macros_denote (E : LiftEnv) (imms : ImmLetter → BitVec 32) (st : PhysState) (e : Expr) (v : IlVal) (x : Val)
    (hn : e.isNesting = true) (hv : e.transform = some v) (hx : e.ceval (cOperand E imms st) = some x) :
    ((∀ d ∈ e.parts, d.Denotes E imms st) ↔ ∀ d ∈ e.parts, d.Keeps E imms st) ∧
    ∀ (s : Stmt) (n p mask : Nat) (t : RegType) (id : RegId) (condJ : Bool) (time : AlignTime) (log : BodyLog)
      (y : Running),
      SetStmt n (.regOld t id) e s p mask → n * (8 * p) < 64 → s.interp E condJ time ⟨imms, st, log⟩ = some y →
      ((∀ d ∈ e.parts, d.Denotes E imms st) ∧ SetsPart st y.st (E.reg (.oldV t id)) (regBytes t id) p n x.val ↔
        (∀ d ∈ e.parts, d.Keeps E imms st) ∧ SetKeeps E st t id e.inferred.1 p n x.val) := by
  obtain ⟨ht, hiff, hcar⟩ := nesting_iff hn hv hx
  refine ⟨hiff, fun s n p mask t id condJ time log y hs hk hrun => ?_⟩
  rw [← hiff, Expr.inferred_eq hn hv]
  exact and_congr_right fun h => set_iff hs hv hk hrun ht (hcar h)

/-- `RsV` is `R1`, and every register is all ones. -/
def onesEnv : LiftEnv := ⟨[(.oldV .R ⟨.s, false⟩, .hex 1)], 0, 0, false⟩
def onesState : PhysState := ⟨fun _ => 0xff, fun _ _ => 0, fun _ => 0⟩

/-- `fCAST8s(fGETHALF(1,RsV))` and its parts stand for minus one, and `fSETHALF(0,RsV,fGETHALF(1,RsV))` puts its low
bits in the low half. -/
theorem macros_denote_half :
    (∀ d ∈ (Expr.call1 .fCast8s (.call1 (.fGethalf 1) (.operand (.regOld .R ⟨.s, false⟩)))).parts,
      d.Denotes onesEnv (fun _ => 0) onesState) ∧
    ∃ x y, (Expr.call1 (.fGethalf 1) (.operand (.regOld .R ⟨.s, false⟩))).ceval
      (cOperand onesEnv (fun _ => 0) onesState) = some x ∧ x.val = -1 ∧
      (Stmt.fSethalf 0 (.regOld .R ⟨.s, false⟩) (.call1 (.fGethalf 1) (.operand (.regOld .R ⟨.s, false⟩)))).interp
        onesEnv false .lifting ⟨fun _ => 0, onesState, []⟩ = some y ∧
      SetsPart onesState y.st (onesEnv.reg (.oldV .R ⟨.s, false⟩)) 4 2 0 x.val := by
  have hreg : (Expr.operand (.regOld .R ⟨.s, false⟩)).Keeps onesEnv (fun _ => 0) onesState := by
    intro x hx
    cases hx
    decide +kernel
  have hhalf : (Expr.call1 (.fGethalf 1) (.operand (.regOld .R ⟨.s, false⟩))).Keeps onesEnv (fun _ => 0) onesState := by
    intro x _
    exact .inl (by decide)
  have hcast : (Expr.call1 .fCast8s (.call1 (.fGethalf 1) (.operand (.regOld .R ⟨.s, false⟩)))).Keeps onesEnv
      (fun _ => 0) onesState := by
    intro x hx
    cases hx
    exact .inr (by decide +kernel)
  constructor
  · refine (macros_denote onesEnv (fun _ => 0) onesState _ _ _ rfl rfl rfl).1.2 ?_
    simp only [Expr.parts, List.forall_mem_cons]
    exact ⟨hcast, hhalf, hreg, fun d hd => by cases hd⟩
  · refine ⟨_, _, rfl, by decide +kernel, rfl, ?_⟩
    have hset := ((macros_denote onesEnv (fun _ => 0) onesState
      (.call1 (.fGethalf 1) (.operand (.regOld .R ⟨.s, false⟩))) _ _ rfl rfl
      rfl).2 _ 0 2 0xffff .R ⟨.s, false⟩ false .lifting [] _ .half (by decide) rfl).2 ?_
    · exact hset.2
    · simp only [Expr.parts, List.forall_mem_cons]
      exact ⟨⟨hhalf, hreg, fun d hd => by cases hd⟩, fun _ => .inl (by decide)⟩

/-- `fCAST8u(RsV)` for minus one: C extends the sign of the `int` it casts, the lifted cast puts zeroes above it. -/
theorem cast_widens_unsigned :
    (Expr.call1 .fCast8u (.operand (.regOld .R ⟨.s, false⟩))).isNesting = true ∧
      (∃ v, (Expr.call1 .fCast8u (.operand (.regOld .R ⟨.s, false⟩))).transform = some v ∧
        v.value onesEnv (fun _ => 0) onesState = 2 ^ 32 - 1) ∧
      (∃ x, (Expr.call1 .fCast8u (.operand (.regOld .R ⟨.s, false⟩))).ceval
        (cOperand onesEnv (fun _ => 0) onesState) = some x ∧ x.val = 2 ^ 64 - 1) ∧
      ¬(Expr.call1 .fCast8u (.operand (.regOld .R ⟨.s, false⟩))).Denotes onesEnv (fun _ => 0) onesState := by
  refine ⟨rfl, ⟨_, rfl, by decide +kernel⟩, ⟨_, rfl, by decide +kernel⟩, ?_⟩
  rintro ⟨v, x, hv, hx, h⟩
  cases hv
  cases hx
  revert h
  decide +kernel

end Hex
