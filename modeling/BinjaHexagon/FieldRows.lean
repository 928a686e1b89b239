import BinjaHexagon.FieldLift
import BinjaHexagon.Opcodes
/-!
# FieldRows — the extension and bit-field instructions

The rows of `alu.idef`, `shift.idef`, `compare.idef` and `subinsns.idef` that the generator lifts through its own
`fZXTN`, `fSXTN`, `fASHIFTL` and `fLSHIFTR`, or whose fields it masks itself: behaviour, and C's result by the macros
of `macros.def`.
-/
namespace Hex

open CInt (Ty Val)
open Flow (Block)

namespace Opcodes

def rx : OperandDecl := reg .R .x
def puNew : OperandDecl := ⟨.P, ⟨.u, false⟩, true⟩

end Opcodes

open Opcodes (rd rs rt rx rdd rss rtt rxx pu puNew ps val var int add)

inductive FieldRow where
  /-- `Rd=sxtb(Rs)` and its kin, of 16 bits or of 8. -/
  | extend (signed half : Bool)
  /-- The `COND_ALU` rows of the same, by the sense of the test and whether the predicate is a new one. -/
  | condExtend (signed half sense new : Bool)
  | c2Tfrpr
  /-- `Rd=add(Rt.L,Rs.L)`, with `sub`, and with `Rs.H`. -/
  | hlL16 (sub high : Bool)
  /-- `Rdd=add(Rss,Rtt):raw:lo` and `:hi`. -/
  | addsp (high : Bool)
  | s2Valignib
  | s2Valignrb
  | s2Vspliceib
  | s2Vsplicerb
  | s2Insert
  | s2Insertp
  | a4Bitspliti
  | a4Bitsplit
  /-- `extract` and `extractu`, of a register or of a pair. -/
  | extract (signed pair : Bool)
  | s2Mask
  deriving Repr, DecidableEq

namespace FieldRow

def a2Sxtb : FieldRow := .extend true false
def a2Sxth : FieldRow := .extend true true
def a2Zxth : FieldRow := .extend false true
def sa1Sxtb : FieldRow := .extend true false
def sa1Sxth : FieldRow := .extend true true
def sa1Zxtb : FieldRow := .extend false false
def sa1Zxth : FieldRow := .extend false true
def a4Psxtb (sense new : Bool) : FieldRow := .condExtend true false sense new
def a4Psxth (sense new : Bool) : FieldRow := .condExtend true true sense new
def a4Pzxtb (sense new : Bool) : FieldRow := .condExtend false false sense new
def a4Pzxth (sense new : Bool) : FieldRow := .condExtend false true sense new
def a2AddhL16Ll : FieldRow := .hlL16 false false
def a2AddhL16Hl : FieldRow := .hlL16 false true
def a2SubhL16Ll : FieldRow := .hlL16 true false
def a2SubhL16Hl : FieldRow := .hlL16 true true
def a2Addspl : FieldRow := .addsp false
def a2Addsph : FieldRow := .addsp true
def s4Extract : FieldRow := .extract true false
def s2Extractu : FieldRow := .extract false false
def s4Extractp : FieldRow := .extract true true
def s2Extractup : FieldRow := .extract false true

/-- `fSXTN` or `fZXTN`. -/
def xtn (signed : Bool) (n v : Expr) : Expr := if signed then GenMacro.fSXTN n v else GenMacro.fZXTN n v

def bits (half : Bool) : Nat := if half then 16 else 8

def width : Expr := .operand (.tmp .width)
def offset : Expr := .operand (.tmp .offset)
def shamt : Expr := .operand (.tmp .shamt)
def imm (l : ImmLetter) : Expr := .operand (.imm l)

/-- `(fCONSTLL(1)<<width)-1`. -/
def fieldMask : Expr := .binop .sub (.binop .shl (GenMacro.fCONSTLL (int 1)) width) (int 1)

/-- `fHIDE(int) width=uiV; fHIDE(int) offset=UiV;` -/
def setField (t : Stmt) : Stmt := .seq (.assg (.tmp .width) (imm .u)) (.seq (.assg (.tmp .offset) (imm .U)) t)

def insertBody (dst src : OperandDecl) : Stmt := setField (.seq
  (.assgBinop (var dst) .and (.bitNot (.binop .shl fieldMask offset)))
  (.assgBinop (var dst) .or (.binop .shl (.binop .and (val src) fieldMask) offset)))

def splitBody (n : Expr) : Stmt :=
  .seq (.fSetword 1 (var rdd) (.binop .shr (.call1 .fCast4u (val rs)) n))
    (.fSetword 0 (var rdd) (GenMacro.fZXTN n (val rs)))

/-- `valignb` by `n` bytes. -/
def valignBody (n : Expr) : Stmt := .assg (var rdd) (.binop .or (GenMacro.fLSHIFTR (val rss) (.binop .mul n (int 8)))
  (GenMacro.fASHIFTL (val rtt) (.binop .mul (.binop .sub (int 8) n) (int 8))))

/-- `vspliceb` by `n` bytes. -/
def vspliceBody (n : Expr) : Stmt := .assg (var rdd) (.binop .or (GenMacro.fASHIFTL (val rtt) (.binop .mul n (int 8)))
  (GenMacro.fZXTN (.binop .mul n (int 8)) (val rss)))

/-- `(PuV&0x7)`. -/
def predAmount : Expr := .binop .and (val pu) (int 7)

def regs : FieldRow → List OperandDecl
  | extend _ _ => [rd, rs]
  | condExtend _ _ _ new => [if new then puNew else pu, rd, rs]
  | c2Tfrpr => [rd, ps]
  | hlL16 _ _ => [rd, rt, rs]
  | addsp _ => [rdd, rss, rtt]
  | s2Valignib => [rdd, rtt, rss]
  | s2Valignrb => [rdd, rtt, rss, pu]
  | s2Vspliceib => [rdd, rss, rtt]
  | s2Vsplicerb => [rdd, rss, rtt, pu]
  | s2Insert => [rx, rs]
  | s2Insertp => [rxx, rss]
  | a4Bitspliti => [rdd, rs]
  | a4Bitsplit => [rdd, rs, rt]
  | extract _ pair => if pair then [rdd, rss] else [rd, rs]
  | s2Mask => [rd]

/-- The assignments of the row. -/
def body : FieldRow → Stmt
  | extend signed half | condExtend signed half _ _ => .assg (var rd) (xtn signed (int (bits half)) (val rs))
  | c2Tfrpr => .assg (var rd) (GenMacro.fZXTN (int 8) (val ps))
  | hlL16 sub high => .assg (var rd) (GenMacro.fSXTN (int 16)
      (.binop (if sub then .sub else .add) (.call1 (.fGethalf 0) (val rt)) (.call1 (.fGethalf high.toNat) (val rs))))
  | addsp high => .assg (var rdd) (add (val rtt) (GenMacro.fSXTN (int 32) (.call1 (.fGetword high.toNat) (val rss))))
  | s2Valignib => valignBody (imm .u)
  | s2Valignrb => valignBody predAmount
  | s2Vspliceib => vspliceBody (imm .u)
  | s2Vsplicerb => vspliceBody predAmount
  | s2Insert => insertBody rx rs
  | s2Insertp => insertBody rxx rss
  | a4Bitspliti => splitBody (imm .u)
  | a4Bitsplit => .seq (.assg (.tmp .shamt) (GenMacro.fZXTN (int 5) (val rt))) (splitBody shamt)
  | extract signed pair => setField (if pair then
      .assg (var rdd) (xtn signed width (.binop .shr (.call1 .fCast8u (val rss)) offset)) else
      .assg (var rd) (xtn signed width (.binop .shr (.call1 .fCast4u (val rs)) offset)))
  | s2Mask => .assg (var rd) (.binop .shl (.binop .sub (.binop .shl (int 1) (imm .u)) (int 1)) (imm .U))

/-- The test the assignments stand under. -/
def guard : FieldRow → Option Expr
  | condExtend _ _ sense new =>
    let test : Expr := if new then .call1 .fLsbnew (.operand (.regNew .P ⟨.u, false⟩)) else .call1 .fLsbold (val pu)
    some (if sense then test else .not test)
  | _ => none

def behaviour (r : FieldRow) : Stmt :=
  match r.guard with
  | some c => .ifElse c r.body .skip
  | none => r.body

/-- The bits of its immediates. -/
def immBits : FieldRow → List Nat
  | s2Valignib | s2Vspliceib => [3]
  | a4Bitspliti => [5]
  | s2Insert | s2Mask => [5, 5]
  | s2Insertp => [6, 6]
  | extract _ pair => if pair then [6, 6] else [5, 5]
  | _ => []

def dst : FieldRow → OperandDecl
  | extend _ _ | condExtend _ _ _ _ | c2Tfrpr | hlL16 _ _ | s2Mask => rd
  | addsp _ | s2Valignib | s2Valignrb | s2Vspliceib | s2Vsplicerb | a4Bitspliti | a4Bitsplit => rdd
  | s2Insert => rx
  | s2Insertp => rxx
  | extract _ pair => if pair then rdd else rd

end FieldRow

namespace FieldRow

section Reference

variable (reg : OperandDecl → Val) (imm : ImmLetter → Val)

/-- C's `(RdV = …)` with the macro `fSXTN` or `fZXTN`. -/
def cXtn (signed : Bool) (n v : Val) : Option Val := if signed then CMacro.fSXTN n v else CMacro.fZXTN n v

def cInsert (dst src : OperandDecl) : Option Val := do
  let one ← (valOf (sizes 8) 1).shl (imm .u).val
  let mask := one.arith (· - ·) (.int 1)
  let hole ← mask.shl (imm .U).val
  let x := ((reg dst).arith Int.land (hole.unary Int.lnot)).cast (reg dst).ty
  let field ← ((reg src).arith Int.land mask).shl (imm .U).val
  some ((x.arith Int.lor field).cast (reg dst).ty)

def cSplit (n : Val) : Option Val := do
  let high ← ((reg rs).cast (sizeu 4)).shr n.val
  let low ← CMacro.fZXTN n (reg rs)
  let x ← CMacro.fSETWORD 1 (reg rdd) high
  CMacro.fSETWORD 0 x low

def cValign (n : Val) : Option Val := do
  let right ← CMacro.fLSHIFTR (reg rss) (n.arith (· * ·) (.int 8))
  let left ← CMacro.fASHIFTL (reg rtt) (((Val.int 8).arith (· - ·) n).arith (· * ·) (.int 8))
  some (right.arith Int.lor left)

def cVsplice (n : Val) : Option Val := do
  let left ← CMacro.fASHIFTL (reg rtt) (n.arith (· * ·) (.int 8))
  let right ← CMacro.fZXTN (n.arith (· * ·) (.int 8)) (reg rss)
  some (left.arith Int.lor right)

/-- `(PuV&0x7)`. -/
def cPredAmount : Val := (reg pu).arith Int.land (.int 7)

/-- What the behaviour assigns in C, the values of the operands given. -/
def result : FieldRow → Option Val
  | extend signed half | condExtend signed half _ _ => cXtn signed (.int (bits half)) (reg rs)
  | c2Tfrpr => CMacro.fZXTN (.int 8) (reg ps)
  | hlL16 sub high => do
    let a ← CMacro.fGETHALF 0 (reg rt)
    let b ← CMacro.fGETHALF high.toNat (reg rs)
    CMacro.fSXTN (.int 16) (a.arith (if sub then (· - ·) else (· + ·)) b)
  | addsp high => do
    let w ← CMacro.fGETWORD high.toNat (reg rss)
    let x ← CMacro.fSXTN (.int 32) w
    some ((reg rtt).arith (· + ·) x)
  | s2Valignib => cValign reg (imm .u)
  | s2Valignrb => cValign reg (cPredAmount reg)
  | s2Vspliceib => cVsplice reg (imm .u)
  | s2Vsplicerb => cVsplice reg (cPredAmount reg)
  | s2Insert => cInsert reg imm rx rs
  | s2Insertp => cInsert reg imm rxx rss
  | a4Bitspliti => cSplit reg (imm .u)
  | a4Bitsplit => do
    let n ← CMacro.fZXTN (.int 5) (reg rt)
    cSplit reg (n.cast (sizeu 4))
  | extract signed pair => do
    let x ← if pair then ((reg rss).cast (sizeu 8)).shr (imm .U).val else ((reg rs).cast (sizeu 4)).shr (imm .U).val
    cXtn signed (imm .u) x
  | s2Mask => do
    let one ← (Val.int 1).shl (imm .u).val
    (one.arith (· - ·) (.int 1)).shl (imm .U).val

end Reference

end FieldRow
end Hex
