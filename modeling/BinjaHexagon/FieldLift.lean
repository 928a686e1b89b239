import BinjaHexagon.FieldMacros
import BinjaHexagon.MacroSet
import BinjaHexagon.TempIndex
/-!
# FieldLift — what the expressions of a bit-field instruction are lifted to

One rule for each operator and macro: what the lifted expression holds where its shifts are in range, and when they are.
The machine has a place for every variable (`varSem`).
-/
namespace Hex

open Bytes (norm)
open CInt (Ty Val)
open Flow (Block)

section Lifts

variable (E : LiftEnv) (imms : ImmLetter → BitVec 32) (s : State Temp)

/-- The expression is lifted to one of `n` bytes, whose shifts are in range if and only if `ok`, and which then holds
`x`. -/
def Expr.Lifts (e : Expr) (n : Nat) (signed : Bool) (x : Int) (ok : Prop) : Prop :=
  ∃ v, e.transform = some v ∧ v.size = n ∧ v.signed = signed ∧ (ok → (E.expr imms v.expr).HoldsAt s n x) ∧
    ((E.expr imms v.expr).ShiftsInRange s ↔ ok)

variable {E imms s} {e a b : Expr} {n m : Nat} {sg sa sb : Bool} {x y : Int} {ok oka okb : Prop}

theorem shiftsInRange_binop (q : IlBinop) (n : Nat) (va vb : IlVal) :
    (E.expr imms (IlVal.binop q n va vb).expr).ShiftsInRange s ↔
      (q.isShift = true → ((E.expr imms vb.expr).eval s).toNat < 8 * n) ∧ (E.expr imms va.expr).ShiftsInRange s ∧
        (E.expr imms vb.expr).ShiftsInRange s := Iff.rfl

theorem shiftsInRange_shift {q : IlBinop} (hq : q.isShift = true) (n : Nat) (va vb : IlVal) :
    (E.expr imms (IlVal.binop q n va vb).expr).ShiftsInRange s ↔
      ((E.expr imms vb.expr).eval s).toNat < 8 * n ∧ (E.expr imms va.expr).ShiftsInRange s ∧
        (E.expr imms vb.expr).ShiftsInRange s := by
  rw [shiftsInRange_binop, hq]
  exact and_congr_left fun _ => ⟨fun h => h rfl, fun h _ => h⟩

theorem size_expr {v : IlVal} (h : v.size = n) : (E.expr imms v.expr).size = n :=
  (IlExpr.size_map _ _).symm.trans ((E.expr_size imms v.expr).trans h)

namespace Expr.Lifts

theorem congr (h : e.Lifts E imms s n sg x ok) (hxy : ok → BitVec.ofInt (8 * n) x = BitVec.ofInt (8 * n) y) :
    e.Lifts E imms s n sg y ok := by
  obtain ⟨v, hv, hn, hsg, hx, hr⟩ := h
  exact ⟨v, hv, hn, hsg, fun hok => (hx hok).congr (hxy hok), hr⟩

theorem range (h : e.Lifts E imms s n sg x ok) {ok' : Prop} (hok : ok ↔ ok') : e.Lifts E imms s n sg x ok' := by
  obtain ⟨v, hv, hn, hsg, hx, hr⟩ := h
  exact ⟨v, hv, hn, hsg, fun h => hx (hok.2 h), hr.trans hok⟩

theorem register {o : Operand} {r : RegName} (ho : liftOperand o = .register n r)
    (hget : s.get n (resolveReg E.regs E.insnNum r) = held n x) : (Expr.operand o).Lifts E imms s n true x True :=
  ⟨_, rfl, congrArg IlVal.size ho, congrArg IlVal.signed ho, fun _ => by rw [ho]; exact hget,
    by rw [ho]; exact Iff.rfl⟩

theorem int (k : Nat) : (Expr.operand (.intcon k)).Lifts E imms s 4 true k True :=
  ⟨_, rfl, rfl, rfl, fun _ => .lit 4 k, Iff.rfl⟩

theorem imm (l : ImmLetter) : (Expr.operand (.imm l)).Lifts E imms s 4 true (imms l).toInt True :=
  ⟨_, rfl, rfl, rfl, fun _ => .const 4 (imms l).toInt, Iff.rfl⟩

/-- The operators of the language that look at low bits only. -/
inductive Arith : Binop → IlBinop → (Int → Int → Int) → Prop where
  | add : Arith .add .add (· + ·)
  | sub : Arith .sub .sub (· - ·)
  | mul : Arith .mul .mult (· * ·)
  | or : Arith .or .or Int.lor
  | and : Arith .and .and Int.land
  | xor : Arith .xor .xor Int.xor

theorem arith {o : Binop} {q : IlBinop} {f : Int → Int → Int} (ho : Arith o q f) (ha : a.Lifts E imms s n sa x oka)
    (hb : b.Lifts E imms s m sb y okb) (hn : n ≤ 8) (hm : m ≤ 8) (hy : okb → n ≤ m ∨ (ilTy m false).Fits y) :
    (Expr.binop o a b).Lifts E imms s n (sa && !(o == .or || o == .and || o == .xor)) (f x y) (oka ∧ okb) := by
  obtain ⟨va, hva, rfl, hsa, hxa, hra⟩ := ha
  obtain ⟨vb, hvb, rfl, hsb, hxb, hrb⟩ := hb
  have hq : q.Arith f ∧ q.isShift = false := by
    cases ho <;> exact ⟨by constructor, rfl⟩
  refine ⟨.binop q va.size va vb, ?_, rfl, ?_, fun hok => .arith hq.1 (hxa hok.1) (hxb hok.2) hn hm (hy hok.2), ?_⟩
  · rw [transform, hva, hvb]
    cases ho <;> rfl
  · rw [← hsa]
    cases ho with
    | add | sub | mul => exact (Bool.and_true _).symm
    | or | and | xor => exact (Bool.and_false _).symm
  · rw [shiftsInRange_binop, hq.2, hra, hrb]
    simp

theorem shl (ha : a.Lifts E imms s n sa x oka) (hb : b.Lifts E imms s m sb y okb) (hn : n ≤ 8) (hm : m ≤ 8) :
    (Expr.binop .shl a b).Lifts E imms s n sa (x * 2 ^ ((ilTy m false).conv y).toNat)
      (((ilTy m false).conv y).toNat < 8 * n ∧ oka ∧ okb) := by
  obtain ⟨va, hva, rfl, hsa, hxa, hra⟩ := ha
  obtain ⟨vb, hvb, rfl, hsb, hxb, hrb⟩ := hb
  have hb' (hok : okb) : (E.expr imms vb.expr).HoldsAt s vb.size ((ilTy vb.size false).conv y) :=
    (hxb hok).congr ((ilTy vb.size false).ofInt_conv y).symm
  refine ⟨.binop .shiftLeft va.size va vb, ?_, rfl, hsa,
    fun hok => (hxa hok.2.1).shl (hb' hok.2.2) hn hm (Ty.fits_conv _ _), ?_⟩
  · rw [transform, hva, hvb]
    rfl
  · rw [shiftsInRange_shift rfl, hra, hrb]
    refine and_congr_left fun hok => ?_
    rw [(hb' hok.2).toNat hm (Ty.fits_conv _ _)]

theorem shr (ha : a.Lifts E imms s n false x oka) (hb : b.Lifts E imms s m sb y okb) (hn : n ≤ 8) (hm : m ≤ 8) :
    (Expr.binop .shr a b).Lifts E imms s n false ((ilTy n false).conv x >>> ((ilTy m false).conv y).toNat)
      (((ilTy m false).conv y).toNat < 8 * n ∧ oka ∧ okb) := by
  obtain ⟨va, hva, rfl, hsa, hxa, hra⟩ := ha
  obtain ⟨vb, hvb, rfl, hsb, hxb, hrb⟩ := hb
  have hb' (hok : okb) : (E.expr imms vb.expr).HoldsAt s vb.size ((ilTy vb.size false).conv y) :=
    (hxb hok).congr ((ilTy vb.size false).ofInt_conv y).symm
  refine ⟨.binop .logicalShiftRight va.size va vb, ?_, rfl, hsa,
    fun hok => (hxa hok.2.1).shr (hb' hok.2.2) hn hm (Ty.fits_conv _ _), ?_⟩
  · rw [transform, hva, hvb]
    simp only [bind, Option.bind_some, exprBinop, hsa, Bool.false_eq_true, if_false]
  · rw [shiftsInRange_shift rfl, hra, hrb]
    refine and_congr_left fun hok => ?_
    rw [(hb' hok.2).toNat hm (Ty.fits_conv _ _)]

theorem bitNot (ha : a.Lifts E imms s n sa x oka) (hn : n ≤ 8) :
    (Expr.bitNot a).Lifts E imms s n false (Int.lnot x) oka := by
  obtain ⟨va, hva, rfl, hsa, hxa, hra⟩ := ha
  refine ⟨.unop .not va.size va, ?_, rfl, rfl, fun hok => (hxa hok).not (size_expr rfl) hn, hra⟩
  rw [transform, hva]
  rfl

/-- `fCAST4u`, `fCAST8s` or `fCAST8u` of a value of the same size. -/
theorem castSame {c : Macro1} (hc : c.reads = some (n, 0, sg) ∧ (c = .fCast4u ∨ c = .fCast8s ∨ c = .fCast8u))
    (ha : a.Lifts E imms s n sa x oka) : (Expr.call1 c a).Lifts E imms s n sg x oka := by
  obtain ⟨va, hva, rfl, hsa, hxa, hra⟩ := ha
  refine ⟨⟨va.expr, sg⟩, ?_, rfl, rfl, hxa, hra⟩
  rw [transform, hva]
  obtain ⟨hr, rfl | rfl | rfl⟩ := hc
  all_goals
    simp only [Macro1.reads, Option.some.injEq, Prod.mk.injEq] at hr
    obtain ⟨hs, -, rfl⟩ := hr
    simp only [bind, Option.bind_some, Macro1.transform, cast, ← hs, Nat.lt_irrefl, Nat.le_refl, if_false, if_true]

/-- `fCAST8s` of a value of four bytes. -/
theorem cast8s (ha : a.Lifts E imms s 4 sa x oka) :
    (Expr.call1 .fCast8s a).Lifts E imms s 8 true ((ilTy 4 true).conv x) oka := by
  obtain ⟨va, hva, hsz, hsa, hxa, hra⟩ := ha
  refine ⟨.unop .signExtend 8 va, ?_, rfl, rfl, fun hok => ?_, hra⟩
  · rw [transform, hva]
    simp only [bind, Option.bind_some, Macro1.transform, cast, hsz]
    rfl
  · exact (hxa hok).unop .signExtend 8 (size_expr hsz) (by decide)

/-- `fGETHALF` of four bytes and `fGETWORD` of eight. -/
theorem getPart {c : Macro1} {p k : Nat} (hc : c = .fGethalf k ∧ p = 2 ∧ n = 4 ∨ c = .fGetword k ∧ p = 4 ∧ n = 8)
    (hk : k < 2)
    (ha : a.Lifts E imms s n sa x oka) :
    (Expr.call1 c a).Lifts E imms s n true ((ilTy p true).conv ((ilTy n true).conv x >>> (k * (8 * p)))) oka := by
  obtain ⟨va, hva, rfl, hsa, hxa, hra⟩ := ha
  have hsz : va.size ≤ 8 ∧ p ≤ va.size ∧ k * (8 * p) < 8 * va.size := by
    rcases hc with ⟨-, rfl, h⟩ | ⟨-, rfl, h⟩ <;> omega
  have htr : (Expr.call1 c a).transform = some (extend true va.size (Hex.getPart p k true va)) := by
    rw [transform, hva]
    rcases hc with ⟨rfl, rfl, h⟩ | ⟨rfl, rfl, h⟩
    · rfl
    · exact if_pos h
  have hcut (z : Int) : (ilTy p true).conv ((ilTy va.size false).conv z) = (ilTy p true).conv z :=
    Ty.conv_conv_of_le (t := ilTy p true) (u := ilTy va.size false) (Nat.mul_le_mul_left 8 hsz.2.1) z
  have hlit : (ilTy 1 false).Fits ((k * (8 * p) : Nat) : Int) := Ty.fits_unsigned.2 ⟨by omega, by omega⟩
  refine ⟨_, htr, rfl, rfl, fun hok => ?_, ?_⟩
  · by_cases h0 : k = 0
    · have hlow : (E.expr imms (Hex.getPart p k true va).expr).HoldsAt s p ((ilTy va.size false).conv x) := by
        rw [Hex.getPart, if_pos h0]
        exact (hxa hok).unop .lowPart p (size_expr rfl) hsz.1
      refine (hlow.unop .signExtend va.size (size_expr (Hex.getPart_size true p k va).1) (by omega)).congr ?_
      rw [IlUnop.onInt, hcut, h0, Nat.zero_mul, Int.shiftRight_zero,
        Ty.conv_conv_of_le (t := ilTy p true) (u := ilTy va.size true) (Nat.mul_le_mul_left 8 hsz.2.1)]
    · have hlow : (E.expr imms (Hex.getPart p k true va).expr).HoldsAt s p
          ((ilTy va.size false).conv ((ilTy va.size true).conv x >>> (k * (8 * p)))) := by
        rw [Hex.getPart, if_neg h0]
        have hsar := (hxa hok).sar (.lit 1 (k * (8 * p))) hsz.1 (by decide) hlit
        rw [Int.toNat_natCast] at hsar
        exact hsar.unop .lowPart p rfl hsz.1
      refine (hlow.unop .signExtend va.size (size_expr (Hex.getPart_size true p k va).1) (by omega)).congr ?_
      rw [IlUnop.onInt, hcut]
  · change (E.expr imms (Hex.getPart p k true va).expr).ShiftsInRange s ↔ _
    by_cases h0 : k = 0
    · rw [Hex.getPart, if_pos h0]
      exact hra
    · rw [Hex.getPart, if_neg h0]
      refine (shiftsInRange_shift (q := .arithShiftRight) rfl _ { va with signed := true }
        (.const 1 (k * (8 * p)))).trans ?_
      rw [show ((E.expr imms (IlVal.const 1 (k * (8 * p))).expr).eval s).toNat = k * (8 * p) from
        (IlExpr.HoldsAt.lit 1 (k * (8 * p))).toNat (by decide) hlit]
      exact ⟨fun h => hra.1 h.2.1, fun h => ⟨hsz.2.2, hra.2 h, trivial⟩⟩

/-- The mask of the generator: `1` is a constant of four bytes. -/
theorem mask (hb : b.Lifts E imms s m sb y okb) (hm : m ≤ 8) (hy : (ilTy m false).Fits y) :
    (Expr.binop .sub (.binop .shl GenMacro.one b) GenMacro.one).Lifts E imms s 4 true (2 ^ y.toNat - 1)
        (y.toNat < 32 ∧ okb) := by
  have hshl := (int 1).shl hb (n := 4) (by decide) hm
  rw [hy] at hshl
  have hsub := hshl.arith .sub (int 1) (by decide) (by decide) fun _ => .inl (Nat.le_refl 4)
  refine (hsub.range (by simp)).congr fun _ => ?_
  rw [Nat.cast_one, one_mul]

theorem fZXTN (ha : a.Lifts E imms s n sa x oka) (hb : b.Lifts E imms s m sb y okb) (hn : n ≤ 8) (hm : m ≤ 8)
    (hy : (ilTy m false).Fits y) :
    (GenMacro.fZXTN b a).Lifts E imms s n false (zxt y.toNat x) (y.toNat < 32 ∧ oka ∧ okb) := by
  have hfit (hlt : y.toNat < 32) : (ilTy 4 false).Fits (2 ^ y.toNat - 1) := by
    have hpow : (2 : Int) ^ y.toNat ≤ 2 ^ 32 := pow_le_pow_right₀ (by decide) hlt.le
    have hpos : (0 : Int) < 2 ^ y.toNat := by positivity
    exact Ty.fits_unsigned.2 ⟨by omega, by omega⟩
  have h := ha.arith .and (hb.mask hm hy) hn (by decide) fun hok => .inr (hfit hok.1)
  have hsg : (sa && !(Binop.and == .or || Binop.and == .and || Binop.and == .xor)) = false := Bool.and_false _
  rw [hsg] at h
  exact h.range (by tauto)

/-- `1<<((N)-1)`: a width of zero shifts by all ones. -/
theorem top (hb : b.Lifts E imms s m sb y okb) (hm : m = 4 ∨ m = 8) (h0 : 0 ≤ y) (h1 : y < 2 ^ 31) :
    (Expr.binop .shl GenMacro.one (.binop .sub b GenMacro.one)).Lifts E imms s 4 true (2 ^ (y.toNat - 1))
      ((1 ≤ y.toNat ∧ y.toNat ≤ 32) ∧ okb) := by
  have hpred := hb.arith .sub (int 1) (by omega) (by decide) fun _ => .inr (by decide)
  have hshl := (int 1).shl hpred (n := 4) (by decide) (by omega)
  have hamount (h : 1 ≤ y.toNat) : ((ilTy m false).conv (y - ((1 : Nat) : Int))).toNat = y.toNat - 1 := by
    have hpow : (2 : Int) ^ 31 ≤ 2 ^ (8 * m) := pow_le_pow_right₀ (by decide) (by omega)
    have hfit : (ilTy m false).Fits (y - 1) := Ty.fits_unsigned.2 ⟨by omega, by omega⟩
    rw [Nat.cast_one, hfit]
    omega
  have hzero (h : y.toNat = 0) : ¬((ilTy m false).conv (y - ((1 : Nat) : Int))).toNat < 32 := by
    have hy : y - ((1 : Nat) : Int) = -1 := by omega
    rw [hy]
    rcases hm with rfl | rfl <;> decide
  refine (hshl.range ?_).congr fun hok => ?_
  · by_cases h : 1 ≤ y.toNat
    · rw [hamount h, true_and, and_true]
      exact and_congr_left fun _ => ⟨fun hlt => ⟨h, by omega⟩, fun hle => by omega⟩
    · exact iff_of_false (fun hc => hzero (by omega) hc.1) fun hc => h hc.1.1
  · rw [hamount hok.1.1, Nat.cast_one, one_mul]

theorem fSXTN (ha : a.Lifts E imms s n sa x oka) (hb : b.Lifts E imms s m sb y okb) (hn : n ≤ 8) (hm : m = 4 ∨ m = 8)
    (h0 : 0 ≤ y) (h1 : y < 2 ^ 31) :
    (GenMacro.fSXTN b a).Lifts E imms s n false (sxt y.toNat x) ((1 ≤ y.toNat ∧ y.toNat < 32) ∧ oka ∧ okb) := by
  have hfit : (ilTy m false).Fits y := by
    have hpow : (2 : Int) ^ 31 ≤ 2 ^ (8 * m) := pow_le_pow_right₀ (by decide) (by omega)
    exact Ty.fits_unsigned.2 ⟨h0, by omega⟩
  have htop := hb.top hm h0 h1
  have hroom (hok : (1 ≤ y.toNat ∧ y.toNat ≤ 32) ∧ okb) : (ilTy 4 false).Fits (2 ^ (y.toNat - 1)) := by
    have hpow : (2 : Int) ^ (y.toNat - 1) ≤ 2 ^ 31 := pow_le_pow_right₀ (by decide) (by omega)
    have hpos : (0 : Int) < 2 ^ (y.toNat - 1) := by positivity
    exact Ty.fits_unsigned.2 ⟨by omega, by omega⟩
  have hxor := (ha.fZXTN hb hn (by omega) hfit).arith .xor htop hn (by decide) fun hok => .inr (hroom hok)
  have hsub := hxor.arith .sub htop hn (by decide) fun hok => .inr (hroom hok)
  refine hsub.range ?_
  constructor
  · rintro ⟨⟨⟨h32, hoka, hokb⟩, -⟩, h1, -⟩
    exact ⟨⟨h1.1, h32⟩, hoka, hokb⟩
  · rintro ⟨⟨h1, h32⟩, hoka, hokb⟩
    exact ⟨⟨⟨h32, hoka, hokb⟩, ⟨h1, h32.le⟩, hokb⟩, ⟨h1, h32.le⟩, hokb⟩

end Expr.Lifts

/-- Every shift of a step is in range in the state the step is made in. -/
def StepInRange (x : State Temp × (LiftAct ⊕ LExpr Temp)) : Prop :=
  match x.2 with
  | .inl (.il i) => ∀ e ∈ i.exprs, e.ShiftsInRange x.1
  | .inl (.branch _ _) => True
  | .inr c => c.ShiftsInRange x.1

/-- A statement without conditionals takes one state to another; its shifts are in range if and only if `ok`. -/
def Stmt.Runs (E : LiftEnv) (imms : ImmLetter → BitVec 32) (t : Stmt) (s s' : State Temp) (ok : Prop) : Prop :=
  ∀ condJ, ∃ b, t.transform condJ = some b ∧ (b.instantiate E.item E.expr imms).1 = imms ∧
    (b.instantiate E.item E.expr imms).2.run varSem s = s' ∧
    ((∀ x ∈ (b.instantiate E.item E.expr imms).2.log varSem s, StepInRange x) ↔ ok)

namespace Stmt.Runs

variable {t u : Stmt} {s' s'' : State Temp}

theorem range (h : t.Runs E imms s s' ok) {ok' : Prop} (hok : ok ↔ ok') : t.Runs E imms s s' ok' := fun condJ =>
  let ⟨b, hb, hi, hr, hl⟩ := h condJ
  ⟨b, hb, hi, hr, hl.trans hok⟩

theorem seq (ht : t.Runs E imms s s' oka) (hu : u.Runs E imms s' s'' okb) :
    (Stmt.seq t u).Runs E imms s s'' (oka ∧ okb) := by
  intro condJ
  obtain ⟨b, hb, hbi, rfl, hbl⟩ := ht condJ
  obtain ⟨k, hk, hki, rfl, hkl⟩ := hu condJ
  refine ⟨b ++ k, ?_, ?_, ?_, ?_⟩
  · rw [transform, hb, hk]
    rfl
  · rw [Block.instantiate_append, hbi, hki]
  · rw [Block.instantiate_append, hbi, Block.run_append]
  · rw [Block.instantiate_append, hbi, Block.log_append, List.forall_mem_append, hbl, hkl]

theorem assg {lv : Operand} {r : RegName} (he : e.Lifts E imms s n sg x ok) (hl : liftOperand lv = .register m r) :
    ∃ w, (Stmt.assg lv e).Runs E imms s (s.set m (resolveReg E.regs E.insnNum r) w) ok ∧ (ok → w = held n x) := by
  obtain ⟨v, hv, rfl, hsg, hx, hr⟩ := he
  refine ⟨(E.expr imms v.expr).eval s, fun condJ => ⟨setRegister m r v, ?_, rfl, rfl, ?_⟩, hx⟩
  · rw [transform, hv, hl]
    rfl
  · rw [← hr]
    exact ⟨fun h => h _ (List.mem_singleton.2 rfl) _ (List.mem_singleton.2 rfl), fun h y hy => by
      rw [List.mem_singleton.1 hy]
      exact fun c hc => by rw [List.mem_singleton.1 hc]; exact h⟩

/-- `lv op= e` is `lv = lv op e`. -/
theorem assgBinop {lv : Operand} {op : Assgop} {o : Binop}
    (h : (Stmt.assg lv (.binop o (.operand lv) e)).Runs E imms s s' ok)
    (ho : ∀ a b, exprBinop o a b = some (.binop op.binop a.size a b)) :
        (Stmt.assgBinop lv op e).Runs E imms s s' ok := by
  intro condJ
  obtain ⟨b, hb, h⟩ := h condJ
  refine ⟨b, ?_, h⟩
  rw [← hb, transform, transform, Expr.transform]
  cases e.transform with
  | none => rfl
  | some v =>
    simp only [bind, Option.bind_some, Expr.transform, ho]

/-- `fSETWORD` of four bytes. -/
theorem setWord {k : Nat} {lv : Operand} {r : RegName} {d : Int} (hk : k < 2) (he : e.Lifts E imms s 4 sg x ok)
    (hl : liftOperand lv = .register 8 r) (hd : s.get 8 (resolveReg E.regs E.insnNum r) = held 8 d) :
    ∃ w, (Stmt.fSetword k lv e).Runs E imms s (s.set 8 (resolveReg E.regs E.insnNum r) w) ok ∧
      (ok → w = held 8 (Hex.setWord k d x)) := by
  obtain ⟨v, hv, hsz, hsg, hx, hr⟩ := he
  have hones : (ilTy 4 false).Fits (0xffffffff : Int) := by decide
  have hamount : (ilTy 1 false).Fits ((k * 32 : Nat) : Int) := Ty.fits_unsigned.2 ⟨by omega, by omega⟩
  have hshift : (IlExpr.const 1 (BitVec.ofNat 64 (k * 32)) : LExpr Temp).HoldsAt s 1 ((k * 32 : Nat) : Int) :=
    .lit 1 (k * 32)
  have hmask : (IlExpr.const 4 (BitVec.ofNat 64 0xffffffff) : LExpr Temp).HoldsAt s 8 0xffffffff :=
    (IlExpr.HoldsAt.lit 4 0xffffffff).widen (by decide) (by decide) hones (by decide)
  have hwide : (ilTy 8 false).Fits ((ilTy 4 false).conv x) :=
    (Ty.fits_conv (ilTy 4 false) x).mono (.inl ⟨by decide, rfl⟩)
  have hval (hok : ok) : (E.expr imms v.expr).HoldsAt s 8 ((ilTy 4 false).conv x) :=
    ((hx hok).congr ((ilTy 4 false).ofInt_conv x).symm).widen (by decide) (by decide) (Ty.fits_conv _ _) hwide
  have hold := IlExpr.HoldsAt.arith .and (a := .register 8 (resolveReg E.regs E.insnNum r)) hd
    ((hmask.shl hshift (by decide) (by decide) hamount).not rfl (by decide)) (by decide) (by decide)
      (.inl (Nat.le_refl 8))
  have hnew (hok : ok) := ((hval hok).arith .and hmask (by decide) (by decide) (.inl (Nat.le_refl 8))).shl hshift
    (by decide)
    (by decide) hamount
  have hvalue (hok : ok) := hold.arith .or (hnew hok) (by decide) (by decide) (.inl (Nat.le_refl 8))
  refine ⟨_, fun condJ => ⟨setPart 32 0xffffffff k r (.register 8 r) v, ?_, rfl, rfl, ?_⟩,
    fun hok => (hvalue hok).trans ?_⟩
  · rw [transform, hv, hl]
    rfl
  · have hin : (E.expr imms (setPartValue 32 0xffffffff k (.register 8 r) v).expr).ShiftsInRange s ↔ ok := by
      have hlt : ((IlExpr.const 1 (BitVec.ofNat 64 (k * 32)) : LExpr Temp).eval s).toNat < 8 * 8 := by
        rw [hshift.toNat (by decide) hamount]
        omega
      rw [← hr]
      constructor
      · exact fun h => h.2.2.2.1.2.1
      · have hno : ∀ {p : Prop}, false = true → p := fun h => Bool.noConfusion h
        exact fun h => ⟨hno, ⟨hno, trivial, fun _ => hlt, trivial, trivial⟩, fun _ => hlt, ⟨hno, h, trivial⟩, trivial⟩
    rw [← hin]
    exact ⟨fun h => h _ (List.mem_singleton.2 rfl) _ (List.mem_singleton.2 rfl), fun h y hy => by
      rw [List.mem_singleton.1 hy]
      exact fun c hc => by rw [List.mem_singleton.1 hc]; exact h⟩
  · rw [Int.toNat_natCast]
    refine held_congr (IlBinop.Arith.or.congr rfl ?_)
    have hcut : BitVec.ofInt (8 * 8) (Int.land ((ilTy 4 false).conv x) 0xffffffff) =
        BitVec.ofInt (8 * 8) (Int.land x 0xffffffff) := land_ones_conv 64 32 x
    rw [CInt.ofInt_mul_two_pow, CInt.ofInt_mul_two_pow, hcut]

end Stmt.Runs

end Lifts
end Hex
