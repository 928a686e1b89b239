import BinjaHexagon.LiftValue
import BinjaHexagon.GenIl
import BinjaHexagon.IlUtil
/-!
# CMacros — the reference macros, as `macros.def` writes them

The C meaning of an expression of the behaviour language: every macro is its text, over the integers of C.  A shift by
less than nothing or by the width and more has none.
-/
namespace Hex

open CInt (Ty Val)

/-- `size1s_t`, `size4u_t` and their kin. -/
abbrev sizes (n : Nat) : Ty := ⟨8 * n, true⟩
abbrev sizeu (n : Nat) : Ty := ⟨8 * n, false⟩

/-- `(t)x` of an integer. -/
def valOf (t : Ty) (x : Int) : Val := ⟨t, t.conv x, t.fits_conv x⟩

namespace CMacro

/-- `fGETBYTE` and its kin: `((t)((SRC>>((N)*b))&mask))`. -/
def getPart (t : Ty) (b : Nat) (mask : Val) (n : Nat) (src : Val) : Option Val :=
  (src.shr (n * b)).map fun s => (s.arith Int.land mask).cast t

def fGETBYTE : Nat → Val → Option Val := getPart (sizes 1) 8 (.int 0xff)
def fGETUBYTE : Nat → Val → Option Val := getPart (sizeu 1) 8 (.int 0xff)
def fGETHALF : Nat → Val → Option Val := getPart (sizes 2) 16 (.int 0xffff)
def fGETUHALF : Nat → Val → Option Val := getPart (sizeu 2) 16 (.int 0xffff)

def fGETWORD (n : Nat) (src : Val) : Option Val :=
  (getPart (sizes 4) 32 (valOf (sizes 8) 0x0ffffffff) n src).map (·.cast (sizes 8))

def fGETUWORD (n : Nat) (src : Val) : Option Val :=
  (getPart (sizeu 4) 32 (valOf (sizes 8) 0x0ffffffff) n src).map (·.cast (sizeu 8))

/-- `(((A) > (B)) ? (A) : (B))`. -/
def fMAX (a b : Val) : Val := .cond (a.rel (fun x y => decide (y < x)) b) a b

/-- `(((A) < (B)) ? (A) : (B))`. -/
def fMIN (a b : Val) : Val := .cond (a.rel (fun x y => decide (x < y)) b) a b

/-- `(((A)<0)?(-(A)):(A))`. -/
def fABS (a : Val) : Val := .cond (a.rel (fun x y => decide (x < y)) (.int 0)) (a.unary (-·)) a

/-- `(Byte0 << 24) | (Byte1 << 8) | (Byte2 >> 8) | (Byte3 >> 24)` of an `uint32_t`. -/
def fBYTESWAP (value : Val) : Val :=
  let x := (sizeu 4).conv value.val
  valOf (sizeu 4) (Int.lor (Int.land x 0x000000ff * 2 ^ 24) (Int.lor (Int.land x 0x0000ff00 * 2 ^ 8)
    (Int.lor (Int.land x 0x00ff0000 >>> 8) (Int.land x 0xff000000 >>> 24))))

/-- `fROTL`, with `fCAST##REGSTYPE##u` a cast to `t`:
`(((SHAMT)==0) ? (SRC) : ((fCAST(SRC) << (SHAMT)) | ((fCAST(SRC) >> ((sizeof(SRC)*8)-(SHAMT))))))`. -/
def fROTL (t : Ty) (src shamt : Val) : Option Val :=
  if shamt.val = 0 then some (src.cast (src.ty.common t))
  else do
    let l ← (src.cast t).shl shamt.val
    let r ← (src.cast t).shr (src.ty.bits - shamt.val)
    some ((l.arith Int.lor r).cast (src.ty.common t))

end CMacro

def Macro1.ceval (m : Macro1) (a : Val) : Option Val :=
  match m with
  | .fGetbyte n => CMacro.fGETBYTE n a
  | .fGetubyte n => CMacro.fGETUBYTE n a
  | .fGethalf n => CMacro.fGETHALF n a
  | .fGetuhalf n => CMacro.fGETUHALF n a
  | .fGetword n => CMacro.fGETWORD n a
  | .fGetuword n => CMacro.fGETUWORD n a
  | .fCast4s => some (a.cast (sizes 4))
  | .fCast4u => some (a.cast (sizeu 4))
  | .fCast8s => some (a.cast (sizes 8))
  | .fCast8u => some (a.cast (sizeu 8))
  | .fAbs => some (CMacro.fABS a)
  | .fByteswap => some (CMacro.fBYTESWAP a)
  | .fNewreg | .fNewregSt | .fImmext => some a
  | .f8bitsof => some (.int (if a.val = 0 then 0x00 else 0xff))
  | .fLsbold => some (a.arith Int.land (.int 1))
  | .fLsbnew => none

def Macro2.ceval (m : Macro2) (a b : Val) : Option Val :=
  match m with
  | .fRotl4u => CMacro.fROTL (sizeu 4) a b
  | .fRotl8u => CMacro.fROTL (sizeu 8) a b
  | .fMax => some (CMacro.fMAX a b)
  | .fMin => some (CMacro.fMIN a b)

def Binop.ceval (o : Binop) (a b : Val) : Option Val :=
  match o with
  | .add => some (a.arith (· + ·) b)
  | .sub => some (a.arith (· - ·) b)
  | .mul => some (a.arith (· * ·) b)
  | .or => some (a.arith Int.lor b)
  | .and => some (a.arith Int.land b)
  | .xor => some (a.arith Int.xor b)
  | .shl => a.shl b.val
  | .shr => a.shr b.val
  | .div => none

/-- The comparison on the converted values. -/
def Relop.rel : Relop → Int → Int → Bool
  | .eq, x, y => x == y
  | .ne, x, y => x != y
  | .le, x, y => decide (x ≤ y)
  | .lt, x, y => decide (x < y)
  | .ge, x, y => decide (y ≤ x)
  | .gt, x, y => decide (y < x)

/-- The C value of an expression, the values of its operands given. -/
def Expr.ceval (ρ : Operand → Option Val) : Expr → Option Val
  | .operand o => ρ o
  | .neg e => (e.ceval ρ).map (·.unary (-·))
  | .bitNot e => (e.ceval ρ).map (·.unary Int.lnot)
  | .not e => (e.ceval ρ).map fun a => .int (if a.val = 0 then 1 else 0)
  | .binop o a b => do
    let x ← a.ceval ρ
    let y ← b.ceval ρ
    o.ceval x y
  | .relop o a b => do
    let x ← a.ceval ρ
    let y ← b.ceval ρ
    some (.int (if x.rel o.rel y then 1 else 0))
  | .call0 _ => none
  | .call1 m e => do
    let x ← e.ceval ρ
    m.ceval x
  | .call2 m a b => do
    let x ← a.ceval ρ
    let y ← b.ceval ρ
    m.ceval x y

section Operands

variable (E : LiftEnv) (imms : ImmLetter → BitVec 32) (st : PhysState)

/-- The register a name stands for. -/
def LiftEnv.reg (r : RegName) : LReg Nat := (resolveReg E.regs E.insnNum r).index

/-- A register operand is an `int` or, for a pair, a 64-bit integer; a predicate register is a byte without sign. -/
def regBytes (t : RegType) (id : RegId) : Nat := if t = .P then 1 else if id.pair then 8 else 4

def cRegister (t : RegType) (id : RegId) (r : RegName) : Val :=
  valOf ⟨8 * regBytes t id, t != .P⟩ (st.get (regBytes t id) (E.reg r)).toNat

/-- The C value of a register operand, of an immediate, and of a literal that is an `int`. -/
def cOperand : Operand → Option Val
  | .regOld t id => some (cRegister E st t id (.oldV t id))
  | .regNew t id => some (cRegister E st t id (.newN t id))
  | .imm l => some (valOf (sizes 4) (imms l).toInt)
  | .intcon n => if n < 2 ^ 31 then some (.int n) else none
  | .regLr | .ea | .tmp _ => none

end Operands
end Hex
