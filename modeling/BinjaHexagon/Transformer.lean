import BinjaHexagon.Behaviour
import BinjaHexagon.Flow
import BinjaHexagon.Llil
/-!
# Transformer — `SemanticsTreeTransformer`

From behaviour trees to the IL the generated code builds.  A failed `assert` is `none`.  `signed` is the attribute of
the same name; a cast sets it on a copy of its operand.
-/
namespace Hex

open Flow (Block)

/-- The C++ expressions that name a register in the generated code. -/
inductive RegName where
  | oldV (t : RegType) (id : RegId)
  | newN (t : RegType) (id : RegId)
  | pd (n : Nat)
  | hexReg (r : Nat)
  | eaReg | tmpReg | widthReg | offsetReg | shamtReg
  | branchrDest
  | branchTaken
  deriving Repr, DecidableEq

/-- The C++ expressions that name a number. -/
inductive ConstName where
  | imm (l : ImmLetter)
  | lit (n : Nat)
  | pc
  deriving Repr, DecidableEq

abbrev GExpr := IlExpr RegName ConstName

/-- An `IlExprId` with its `signed` attribute. -/
structure IlVal where
  expr : GExpr
  signed : Bool
  deriving Repr, DecidableEq

namespace IlVal

def size (v : IlVal) : Nat := v.expr.size

def register (size : Nat) (r : RegName) : IlVal := ⟨.register size r, true⟩
def const (size : Nat) (n : Nat) : IlVal := ⟨.const size (.lit n), true⟩

def unop (o : IlUnop) (size : Nat) (a : IlVal) : IlVal :=
  ⟨.unop o size a.expr, match o with
    | .lowPart => a.signed
    | .zeroExtend | .not | .neg => false
    | .signExtend | .boolToInt => true⟩

def binop (o : IlBinop) (size : Nat) (a b : IlVal) : IlVal :=
  ⟨.binop o size a.expr b.expr, match o with
    | .or | .and | .xor => false
    | _ => a.signed⟩

def compare (o : IlCompare) (size : Nat) (a b : IlVal) : IlVal := ⟨.compare o size a.expr b.expr, false⟩

/-- `isinstance(val, IlCompareExpr)`. -/
def isCompare (v : IlVal) : Bool :=
  match v.expr with
  | .compare _ _ _ _ => true
  | _ => false

/-- `isinstance(val, IlAnd) and val.b == IlConst(4, 1)`. -/
def isAndOne (v : IlVal) : Bool :=
  match v.expr with
  | .binop .and _ _ (.const 4 (.lit 1)) => true
  | _ => false

/-- `isinstance(val, IlRegister)`, with the register. -/
def register? (v : IlVal) : Option RegName :=
  match v.expr with
  | .register _ r => some r
  | _ => none

end IlVal

/-- `val.reg.startswith('P')`. -/
def RegName.startsWithP : RegName → Bool
  | .oldV t _ | .newN t _ => t == .P
  | .pd _ => true
  | _ => false

/-- `re.search(r'dd|ss|tt|uu|vv', op)`. -/
def RegId.matchesPair (id : RegId) : Bool :=
  id.pair && (id.letter == .d || id.letter == .s || id.letter == .t || id.letter == .u || id.letter == .v)

def regSize (t : RegType) (id : RegId) : Nat :=
  if t = .P then 1 else if id.matchesPair then 8 else 4

def liftOperand : Operand → IlVal
  | .regOld t id => .register (regSize t id) (.oldV t id)
  | .regNew t id => .register (regSize t id) (.newN t id)
  | .ea => .register 4 .eaReg
  | .regLr => .register 4 (.hexReg hexRegLr)
  | .imm l => ⟨.const 4 (.imm l), true⟩
  | .intcon n => .const 4 n
  | .tmp .tmp => .register 8 .tmpReg
  | .tmp .width => .register 8 .widthReg
  | .tmp .offset => .register 8 .offsetReg
  | .tmp .shamt => .register 8 .shamtReg

namespace Macro0

def transform : Macro0 → Option IlVal
  | .fFrameScramble => some ⟨.registerSplit 4 (.hexReg hexRegLr) (.hexReg hexRegFp), true⟩
  | .fReadPc => some ⟨.constPointer 4 .pc, false⟩
  | .fReadLr => some (.register 4 (.hexReg hexRegLr))
  | .fReadFp => some (.register 4 (.hexReg hexRegFp))
  | .fReadSp => some (.register 4 (.hexReg hexRegSp))
  | .fReadGp => some ⟨.readGp 4, true⟩
  | .fReadP0 => some (.register 1 (.pd 0))
  | .fReadLpcfg => some (.register 1 (.hexReg hexRegUsrLpcfg))
  | .fReadLc 0 => some (.register 4 (.hexReg hexRegLc0))
  | .fReadLc 1 => some (.register 4 (.hexReg hexRegLc1))
  | .fReadLc _ => none
  | .fReadSa 0 => some (.register 4 (.hexReg hexRegSa0))
  | .fReadSa 1 => some (.register 4 (.hexReg hexRegSa1))
  | .fReadSa _ => none

end Macro0

/-- `fGETBYTE` and its kin: the `n`th part of `bits` bits, as a value of `part` bytes. -/
def getPart (part n : Nat) (signed : Bool) (src : IlVal) : IlVal :=
  let src := { src with signed }
  if n = 0 then .unop .lowPart part src
  else .unop .lowPart part
    (.binop (if signed then .arithShiftRight else .logicalShiftRight) src.size src (.const 1 (n * (8 * part))))

def extend (signed : Bool) (size : Nat) (v : IlVal) : IlVal :=
  .unop (if signed then .signExtend else .zeroExtend) size v

/-- `fCAST4s`, `fCAST4u`, `fCAST8s`, `fCAST8u`. -/
def cast (size : Nat) (signed : Bool) (val : IlVal) : IlVal :=
  if size < val.size then .unop .lowPart size { val with signed }
  else if val.size = size then { val with signed }
  else extend signed size val

namespace Macro1

def transform (m : Macro1) (arg : Expr) (v : IlVal) : Option IlVal :=
  match m with
  | .fGetbyte n => some (getPart 1 n true v)
  | .fGetubyte n => some (getPart 1 n false v)
  | .fGethalf n => some (extend true v.size (getPart 2 n true v))
  | .fGetuhalf n => some (extend false v.size (getPart 2 n false v))
  | .fGetword n => if v.size = 8 then some (extend true v.size (getPart 4 n true v)) else none
  | .fGetuword n => if v.size = 8 then some (extend false v.size (getPart 4 n false v)) else none
  | .fCast4s => some (cast 4 true v)
  | .fCast4u => some (cast 4 false v)
  | .fCast8s => if v.size ≤ 8 then some (cast 8 true v) else none
  | .fCast8u => if v.size ≤ 8 then some (cast 8 false v) else none
  | .f8bitsof => if v.isCompare || v.isAndOne then some v else none
  | .fLsbold =>
    match v.register? with
    | some r => if r.startsWithP then some v else none
    | none => none
  | .fLsbnew =>
    match arg with
    | .operand (.intcon 0) => some (.binop .and 1 (.register 1 (.pd 0)) (.const 1 1))
    | .operand (.intcon 1) => some (.binop .and 1 (.register 1 (.pd 1)) (.const 1 1))
    | _ => some (.binop .and v.size v (.const 1 1))
  | .fNewreg | .fNewregSt =>
    match arg with
    | .operand (.regNew _ _) => some v
    | _ => none
  | .fImmext =>
    match arg with
    | .operand (.imm _) => some v
    | _ => none
  | .fAbs =>
    if v.signed then
      let sign : IlVal := .unop .boolToInt v.size (.compare .signedLessThan v.size v (.const v.size 0))
      some (.binop .mult v.size (.binop .sub v.size (.const v.size 1) (.binop .mult v.size (.const v.size 2) sign)) v)
    else some v
  | .fByteswap =>
    if v.size = 4 then
      let b0 : IlVal := .binop .and 4 v (.const 4 0x000000ff)
      let b1 : IlVal := .binop .and 4 v (.const 4 0x0000ff00)
      let b2 : IlVal := .binop .and 4 v (.const 4 0x00ff0000)
      let b3 : IlVal := .binop .and 4 v (.const 4 0xff000000)
      some (.binop .or 4 (.binop .shiftLeft 4 b0 (.const 1 24)) (.binop .or 4 (.binop .shiftLeft 4 b1 (.const 1 8))
        (.binop .or 4 (.binop .logicalShiftRight 4 b2 (.const 1 8)) (.binop .logicalShiftRight 4 b3 (.const 1 24)))))
    else none

end Macro1

/-- `fMAX` and `fMIN`: `(a o b) * a + (a o' b) * b`. -/
def select (o o' : IlCompare) (a b : IlVal) : IlVal :=
  .binop .add a.size (.binop .mult a.size (.unop .boolToInt a.size (.compare o a.size a b)) a)
    (.binop .mult a.size (.unop .boolToInt a.size (.compare o' a.size a b)) b)

namespace Macro2

def transform (m : Macro2) (a b : IlVal) : Option IlVal :=
  match m with
  | .fRotl4u => if a.size = 4 then some (.binop .rotateLeft 4 a b) else none
  | .fRotl8u => if a.size = 8 then some (.binop .rotateLeft 8 a b) else none
  | .fMax =>
    if a.size = b.size then
      some (if a.signed then select .signedGreaterEqual .signedLessThan a b
        else select .unsignedGreaterEqual .unsignedLessThan a b)
    else none
  | .fMin =>
    if a.size = b.size then
      some (if a.signed then select .signedLessEqual .signedGreaterThan a b
        else select .unsignedLessEqual .unsignedGreaterThan a b)
    else none

end Macro2

/-- `expr_binop`; there is no case for `/`. -/
def exprBinop (o : Binop) (a b : IlVal) : Option IlVal :=
  match o with
  | .add => some (.binop .add a.size a b)
  | .sub => some (.binop .sub a.size a b)
  | .mul => some (.binop .mult a.size a b)
  | .div => none
  | .or => some (.binop .or a.size a b)
  | .and => some (.binop .and a.size a b)
  | .xor => some (.binop .xor a.size a b)
  | .shl => some (.binop .shiftLeft a.size a b)
  | .shr => some (.binop (if a.signed then .arithShiftRight else .logicalShiftRight) a.size a b)

def Relop.compare (o : Relop) (signed : Bool) : IlCompare :=
  match o, signed with
  | .eq, _ => .equal
  | .ne, _ => .notEqual
  | .le, true => .signedLessEqual
  | .le, false => .unsignedLessEqual
  | .lt, true => .signedLessThan
  | .lt, false => .unsignedLessThan
  | .ge, true => .signedGreaterEqual
  | .ge, false => .unsignedGreaterEqual
  | .gt, true => .signedGreaterThan
  | .gt, false => .unsignedGreaterThan

def exprRelop (o : Relop) (a b : IlVal) : IlVal := .compare (o.compare a.signed) a.size a b

/-- `lift_operand` of a transformed expression. -/
def Expr.transform : Expr → Option IlVal
  | .operand o => some (liftOperand o)
  | .neg e => do
    let v ← e.transform
    some (.unop .neg v.size v)
  | .not e => do
    let v ← e.transform
    some (.unop .not v.size v)
  | .bitNot e => do
    let v ← e.transform
    some (.unop .not v.size v)
  | .binop o a b => do
    let a ← a.transform
    let b ← b.transform
    exprBinop o a b
  | .relop o a b => do
    let a ← a.transform
    let b ← b.transform
    some (exprRelop o a b)
  | .call0 m => m.transform
  | .call1 m e => do
    let v ← e.transform
    m.transform e v
  | .call2 m a b => do
    let a ← a.transform
    let b ← b.transform
    m.transform a b

/-- A token; everything else reaches `if_stmt` as an `IlExprId`. -/
def Expr.isToken : Expr → Bool
  | .operand _ => true
  | _ => false

inductive BranchKind where
  | jump | call | ret
  deriving Repr, DecidableEq

/-- What the transformer returns in its lists: an IL instruction, an `IlBranch`, or the `RawC` of `fPCALIGN`. -/
inductive GenItem where
  | insn (i : IlInsn RegName ConstName)
  | branch (k : BranchKind) (dest : GExpr)
  | pcalign (l : ImmLetter)
  deriving Repr, DecidableEq

abbrev GBlock := Block GenItem GExpr

def setRegister (size : Nat) (r : RegName) (v : IlVal) : GBlock := .act (.insn (.setRegister size r v.expr)) .nil

/-- `macro_stmt_fBRANCH`; `condJ` is `'A_BN_COND_J' in attribdict[self.tag]`. -/
def macroBranch (condJ : Bool) (loc : IlVal) (typ : BranchType) : Option GBlock :=
  let taken : GBlock := if condJ then setRegister 1 .branchTaken (.const 1 1) else .nil
  let dest : GBlock := setRegister 4 .branchrDest loc
  let branch (k : BranchKind) : GBlock := .act (.branch k loc.expr) .nil
  match typ with
  | .jump | .jumpnew => some (taken ++ branch .jump)
  | .jumpr => some (taken ++ dest ++ branch .jump)
  | .call => some (taken ++ branch .call)
  | .callr => some (taken ++ dest ++ branch .call)
  | .ret => some (taken ++ branch .ret)
  | .loopend0 | .loopend1 => if condJ then some (taken ++ dest ++ branch .jump) else none

/-- `macro_stmt_fSETHALF` and `macro_stmt_fSETWORD`: put the low `bits` of `val` into the `n`th part of `dst`. -/
def setPart (bits mask n : Nat) (r : RegName) (dst val : IlVal) : GBlock :=
  let old : IlVal := .binop .and dst.size dst
    (.unop .not dst.size (.binop .shiftLeft dst.size (.const 4 mask) (.const 1 (n * bits))))
  let new : IlVal := .binop .shiftLeft dst.size (.binop .and dst.size val (.const 4 mask)) (.const 1 (n * bits))
  setRegister dst.size r (.binop .or dst.size old new)

def Assgop.binop : Assgop → IlBinop
  | .add => .add
  | .sub => .sub
  | .and => .and
  | .xor => .xor
  | .or => .or

/-- `assg`: the left side must be a register. -/
def assg (lv rv : IlVal) : Option GBlock := do
  let r ← lv.register?
  some (setRegister lv.size r rv)

/-- `if_stmt`: without an `else` list there is no `else` label. -/
def ifStmt (c : GExpr) (t f : GBlock) : GBlock :=
  match f with
  | .nil => .ifThen c t .nil
  | f => .ifElse c t f .nil

def fStore (size : Nat) (src : IlVal) : GBlock :=
  .act (.insn (.store size (liftOperand .ea).expr src.expr)) .nil

def fLoad (size : Nat) (signed : Bool) (dst : IlVal) : Option GBlock :=
  let val : IlVal := ⟨.load size (liftOperand .ea).expr, true⟩
  assg dst (if size < dst.size then extend signed dst.size val else val)

/-- The statement handlers of the transformer. -/
def Stmt.transform (condJ : Bool) : Stmt → Option GBlock
  | .skip | .fImmext _ => some .nil
  | .seq s t => do
    let bs ← s.transform condJ
    let bt ← t.transform condJ
    some (bs ++ bt)
  | .assg lv e => do
    let v ← e.transform
    Hex.assg (liftOperand lv) v
  | .assgBinop lv op e => do
    let v ← e.transform
    let l := liftOperand lv
    Hex.assg l (.binop op.binop l.size l v)
  | .ifThen c t => do
    let v ← c.transform
    let bt ← t.transform condJ
    if c.isToken then none else some (ifStmt v.expr bt .nil)
  | .ifElse c t f => do
    let v ← c.transform
    let bt ← t.transform condJ
    let bf ← f.transform condJ
    if c.isToken then none else some (ifStmt v.expr bt bf)
  | .fPcalign l => some (.act (.pcalign l) .nil)
  | .fBranch loc typ => do
    let v ← loc.transform
    macroBranch condJ v typ
  | .fJumpr regno loc typ => do
    let v ← loc.transform
    macroBranch condJ v (if regno = .operand .regLr then .ret else typ)
  | .fTrap => some (.act (.insn .systemCall) .nil)
  | .fBreak => some (.act (.insn .breakpoint) .nil)
  | .fStore size src => do
    let v ← src.transform
    some (Hex.fStore size v)
  | .fStoreLocked size src pred => do
    let v ← src.transform
    let p := liftOperand pred
    let r ← p.register?
    some (Hex.fStore size v ++ setRegister p.size r (.const 1 1))
  | .fLoad size signed dst => Hex.fLoad size signed (liftOperand dst)
  | .fWriteFp a => do
    let v ← a.transform
    some (setRegister 4 (.hexReg hexRegFp) v)
  | .fWriteLr a => do
    let v ← a.transform
    some (setRegister 4 (.hexReg hexRegLr) v)
  | .fWriteSp a => do
    let v ← a.transform
    some (setRegister 4 (.hexReg hexRegSp) v)
  | .fWriteP n val => do
    let v ← val.transform
    some (setRegister 1 (.pd n) v)
  | .fWriteLoopRegs n start count => do
    let s ← start.transform
    let c ← count.transform
    match n with
    | 0 => some (setRegister 4 (.hexReg hexRegLc0) c ++ setRegister 4 (.hexReg hexRegSa0) s)
    | 1 => some (setRegister 4 (.hexReg hexRegLc1) c ++ setRegister 4 (.hexReg hexRegSa1) s)
    | _ => none
  | .fSetLpcfg val => do
    let v ← val.transform
    some (setRegister 1 (.hexReg hexRegUsrLpcfg) v)
  | .fWriteLc n val => do
    let v ← val.transform
    match n with
    | 0 => some (setRegister 4 (.hexReg hexRegLc0) v)
    | 1 => some (setRegister 4 (.hexReg hexRegLc1) v)
    | _ => none
  | .fSethalf n dst val => do
    let v ← val.transform
    let d := liftOperand dst
    let r ← d.register?
    if d.size = 4 then some (setPart 16 0xffff n r d v) else none
  | .fSetword n dst val => do
    let v ← val.transform
    let d := liftOperand dst
    let r ← d.register?
    if d.size = 8 then some (setPart 32 0xffffffff n r d v) else none

end Hex
