import BinjaHexagon.Insn
/-!
# Opcodes — rows of the opcode table

The rows of a few opcodes, as the generator leaves them: the macros of `preprocess_semantics` are expanded.
-/
namespace Hex
namespace Opcodes

def reg (t : RegType) (l : RegLetter) : OperandDecl := ⟨t, ⟨l, false⟩, false⟩
def pair (t : RegType) (l : RegLetter) : OperandDecl := ⟨t, ⟨l, true⟩, false⟩

def rd : OperandDecl := reg .R .d
def rs : OperandDecl := reg .R .s
def rt : OperandDecl := reg .R .t
def rdd : OperandDecl := pair .R .d
def rss : OperandDecl := pair .R .s
def rtt : OperandDecl := pair .R .t
def rxx : OperandDecl := pair .R .x
def pd : OperandDecl := reg .P .d
def ps : OperandDecl := reg .P .s
def pu : OperandDecl := reg .P .u
def pv : OperandDecl := reg .P .v

def val (d : OperandDecl) : Expr := .operand (.regOld d.regtype d.regid)
def var (d : OperandDecl) : Operand := .regOld d.regtype d.regid
def ea : Expr := .operand .ea
def int (n : Nat) : Expr := .operand (.intcon n)
def add (a b : Expr) : Expr := .binop .add a b

/-- `jump #r22:2`, the opcode numbered zero. -/
def j2Jump : Opcode where
  tag := .other 11
  attribs := [.jump, .extendable]
  regs := []
  parts := [.block [.fImmext .r, .fPcalign .r, .fBranch (add (.call0 .fReadPc) (.operand (.imm .r))) .jump]]
  supported := true
  generated _ := by decide
  wellScoped _ := by decide
  hint_not_call := by decide

/-- `immext(#u26:6)` -/
def a4Ext : Opcode where
  tag := .a4Ext
  attribs := [.itExtender]
  regs := []
  parts := [.skip]
  supported := true
  generated _ := by decide
  wellScoped _ := by decide
  hint_not_call := by decide

/-- `nop` -/
def a2Nop : Opcode where
  tag := .other 12
  attribs := []
  regs := []
  parts := [.skip]
  supported := true
  generated _ := by decide
  wellScoped _ := by decide
  hint_not_call := by decide

/-- The countdown of `LPCFG` at the end of loop 0. -/
def countLpcfg : Stmt := .ifThen (.call0 .fReadLpcfg) (.block
  [.ifThen (.relop .eq (.call0 .fReadLpcfg) (int 1)) (.fWriteP 3 (int 0xff)),
    .fSetLpcfg (.binop .sub (.call0 .fReadLpcfg) (int 1))])

/-- `if (fREAD_LC0>1) { … } else { … }`, and the same of loop 1. -/
def iterates (n : Nat) : Expr := .relop .gt (.call0 (.fReadLc n)) (int 1)

/-- The branch back and the decremented count. -/
def loopBack (n : Nat) (typ : BranchType) : Stmt :=
  .block [.fBranch (.call0 (.fReadSa n)) typ, .fWriteLc n (.binop .sub (.call0 (.fReadLc n)) (int 1))]

def j2Endloop0 : Opcode where
  tag := .j2Endloop0
  attribs := [.hwloop0End, .jump, .indirect, .bnCondJ, .implicitWritesP3]
  regs := []
  parts := [.block [countLpcfg, .ifThen (iterates 0) (loopBack 0 .loopend0)]]
  supported := true
  generated _ := by decide
  wellScoped _ := by decide
  hint_not_call := by decide

def j2Endloop1 : Opcode where
  tag := .j2Endloop1
  attribs := [.hwloop1End, .jump, .indirect, .bnCondJ]
  regs := []
  parts := [.ifThen (iterates 1) (loopBack 1 .loopend1)]
  supported := true
  generated _ := by decide
  wellScoped _ := by decide
  hint_not_call := by decide

def j2Endloop01 : Opcode where
  tag := .j2Endloop01
  attribs := [.hwloop0End, .hwloop1End, .jump, .indirect, .bnCondJ, .implicitWritesP3]
  regs := []
  parts := [.block [countLpcfg, .ifElse (iterates 0) (loopBack 0 .loopend0)
    (.ifThen (iterates 1) (loopBack 1 .loopend1))]]
  supported := true
  generated _ := by decide
  wellScoped _ := by decide
  hint_not_call := by decide

/-- `if (Pu4) jump:nt #r15:2` -/
def j2Jumpt : Opcode where
  tag := .other 0
  attribs := [.jump, .bnCondJ, .extendable]
  regs := [pu]
  parts := [.ifThen (.call1 .fLsbold (val pu)) (.block
    [.fImmext .r, .fPcalign .r, .fBranch (add (.call0 .fReadPc) (.operand (.imm .r))) .jump])]
  supported := true
  generated _ := by decide
  wellScoped _ := by decide
  hint_not_call := by decide

/-- `p0=cmp.eq(Rs16,#U5); if (p0.new) jump:t #r9:2` -/
def j4CmpeqiTp0JumpT : Opcode where
  tag := .other 13
  attribs := [.jump, .newcmpjump, .bnCondJ, .extendable, .implicitWritesP0]
  regs := [rs]
  parts := [.fWriteP 0 (.call1 .f8bitsof (.relop .eq (val rs) (.operand (.imm .U)))),
    .ifThen (.call1 .fLsbnew (int 0)) (.block
      [.fImmext .r, .fPcalign .r, .fBranch (add (.call0 .fReadPc) (.operand (.imm .r))) .jump])]
  supported := true
  generated _ := by decide
  wellScoped _ := by decide
  hint_not_call := by decide

/-- `call #r22:2` -/
def j2Call : Opcode where
  tag := .other 1
  attribs := [.call, .extendable]
  regs := []
  parts := [.block [.fImmext .r, .fPcalign .r, .fBranch (add (.call0 .fReadPc) (.operand (.imm .r))) .call]]
  supported := true
  generated _ := by decide
  wellScoped _ := by decide
  hint_not_call := by decide

/-- `jumpr Rs32` -/
def j2Jumpr : Opcode where
  tag := .j2Jumpr
  attribs := [.jump, .indirect]
  regs := [rs]
  parts := [.fJumpr (.operand (.regNew .R ⟨.s, false⟩)) (val rs) .jumpr]
  supported := true
  generated _ := by decide
  wellScoped _ := by decide
  hint_not_call := by decide

/-- `if (Pv4) Rdd32=dealloc_return(Rs32):raw` -/
def l4ReturnT : Opcode where
  tag := .other 2
  attribs := [.load, .jump, .indirect, .bnCondJ]
  regs := [pv, rdd, rs]
  parts := [.block [.assg .ea (val rs), .ifElse (.call1 .fLsbold (val pv)) (.block
    [.fLoad 8 false (.tmp .tmp), .assg (var rdd) (.operand (.tmp .tmp)), .fWriteSp (add ea (int 8)),
      .fJumpr (.operand .regLr) (.call1 (.fGetword 1) (val rdd)) .jumpr]) .skip]]
  supported := true
  generated _ := by decide
  wellScoped _ := by decide
  hint_not_call := by decide

/-- `Rdd32=deallocframe(Rs32):raw` -/
def l2Deallocframe : Opcode where
  tag := .other 3
  attribs := [.load]
  regs := [rdd, rs]
  parts := [.block [.assg .ea (val rs), .fLoad 8 false (.tmp .tmp), .assg (var rdd) (.operand (.tmp .tmp)),
    .fWriteSp (add ea (int 8))]]
  supported := true
  generated _ := by decide
  wellScoped _ := by decide
  hint_not_call := by decide

/-- `Rd32=add(Rs32,#s16)` -/
def a2Addi : Opcode where
  tag := .other 4
  attribs := [.extendable]
  regs := [rd, rs]
  parts := [.block [.fImmext .s, .assg (var rd) (add (val rs) (.operand (.imm .s)))]]
  supported := true
  generated _ := by decide
  wellScoped _ := by decide
  hint_not_call := by decide

/-- `if (Pu4) Rd32=add(Rs32,Rt32)` -/
def a2Paddt : Opcode where
  tag := .other 5
  attribs := []
  regs := [pu, rd, rs, rt]
  parts := [.ifElse (.call1 .fLsbold (val pu)) (.assg (var rd) (add (val rs) (val rt))) .skip]
  supported := true
  generated _ := by decide
  wellScoped _ := by decide
  hint_not_call := by decide

/-- `memd(Rs32+#s11:3)=Rtt32` -/
def s2StorerdIo : Opcode where
  tag := .other 6
  attribs := [.store, .extendable]
  regs := [rs, rtt]
  parts := [.block [.fImmext .s, .assg .ea (add (val rs) (.operand (.imm .s))), .fStore 8 (val rtt)]]
  supported := true
  generated _ := by decide
  wellScoped _ := by decide
  hint_not_call := by decide

/-- `Rdd32=add(Rss32,Rtt32)` -/
def a2Addp : Opcode where
  tag := .other 32
  attribs := []
  regs := [rdd, rss, rtt]
  parts := [.assg (var rdd) (add (val rss) (val rtt))]
  supported := true
  generated _ := by decide
  wellScoped _ := by decide
  hint_not_call := by decide

/-- `Pd4=cmp.eq(Rs32,Rt32)` -/
def c2Cmpeq : Opcode where
  tag := .other 7
  attribs := []
  regs := [pd, rs, rt]
  parts := [.assg (var pd) (.call1 .f8bitsof (.relop .eq (val rs) (val rt)))]
  supported := true
  generated _ := by decide
  wellScoped _ := by decide
  hint_not_call := by decide

/-- `if (p0) Rd16=#0` -/
def sa1Clrt : Opcode where
  tag := .other 8
  attribs := [.subinsn]
  regs := [rd]
  parts := [.ifElse (.call1 .fLsbold (.call0 .fReadP0)) (.assg (var rd) (int 0)) .skip]
  supported := true
  generated _ := by decide
  wellScoped _ := by decide
  hint_not_call := by decide

/-- `Pd4=not(Ps4)` -/
def c2Not : Opcode where
  tag := .other 9
  attribs := []
  regs := [pd, ps]
  parts := [.assg (var pd) (.bitNot (val ps))]
  supported := true
  generated _ := by decide
  wellScoped _ := by decide
  hint_not_call := by decide

/-- `Rxx32+=mpy(Rs32,Rt32)` -/
def m2DpmpyssAccS0 : Opcode where
  tag := .other 10
  attribs := []
  regs := [rxx, rs, rt]
  parts := [.assg (var rxx) (add (val rxx) (.binop .mul (.call1 .fCast8s (.call1 .fCast4s (val rs)))
    (.call1 .fCast8s (.call1 .fCast4s (val rt)))))]
  supported := true
  generated _ := by decide
  wellScoped _ := by decide
  hint_not_call := by decide

/-- What sets up a hardware loop: `loop0`, `loop1`, and the pipelined `sp1loop0`, `sp2loop0` and `sp3loop0`. -/
inductive LoopKind where
  | loop0 | loop1 | sp1loop0 | sp2loop0 | sp3loop0
  deriving Repr, DecidableEq

namespace LoopKind

/-- Which loop. -/
def index : LoopKind → Nat
  | loop1 => 1
  | _ => 0

/-- The value for `LPCFG`. -/
def lpcfg : LoopKind → Option Nat
  | loop0 => some 0
  | loop1 => none
  | sp1loop0 => some 1
  | sp2loop0 => some 2
  | sp3loop0 => some 3

/-- `P3` is cleared. -/
def pipelined : LoopKind → Bool
  | loop0 | loop1 => false
  | _ => true

/-- The number of the opcode with the count in a register; the one with an immediate count follows. -/
def number : LoopKind → Nat
  | loop0 => 14
  | loop1 => 16
  | sp1loop0 => 18
  | sp2loop0 => 20
  | sp3loop0 => 22

end LoopKind

/-- `loop0(#r7:2,Rs32)` and its kin; with `#U10` in the place of `Rs32` where `imm` says so. -/
def loopRow (k : LoopKind) (imm : Bool) : OpcodeRow where
  tag := .other (k.number + imm.toNat)
  attribs := [.extendable, if k.index = 0 then .implicitWritesSa0 else .implicitWritesSa1] ++
    if k.pipelined then [.implicitWritesP3] else []
  regs := if imm then [] else [rs]
  parts := [.block ([.fImmext .r, .fPcalign .r,
    .fWriteLoopRegs k.index (add (.call0 .fReadPc) (.operand (.imm .r)))
      (if imm then .operand (.imm .U) else val rs)] ++
      (k.lpcfg.map fun n => .fSetLpcfg (int n)).toList ++ if k.pipelined then [.fWriteP 3 (int 0)] else [])]
  supported := true

def loopSetup (k : LoopKind) (imm : Bool) : Opcode where
  toOpcodeRow := loopRow k imm
  generated _ := by cases k <;> cases imm <;> decide
  wellScoped _ := by cases k <;> cases imm <;> decide
  hint_not_call := by cases k <;> cases imm <;> decide
  consistent := by cases k <;> cases imm <;> decide

def j2Loop0r : Opcode := loopSetup .loop0 false
def j2Loop0i : Opcode := loopSetup .loop0 true
def j2Loop1r : Opcode := loopSetup .loop1 false
def j2Loop1i : Opcode := loopSetup .loop1 true
def j2Ploop1sr : Opcode := loopSetup .sp1loop0 false
def j2Ploop1si : Opcode := loopSetup .sp1loop0 true
def j2Ploop2sr : Opcode := loopSetup .sp2loop0 false
def j2Ploop2si : Opcode := loopSetup .sp2loop0 true
def j2Ploop3sr : Opcode := loopSetup .sp3loop0 false
def j2Ploop3si : Opcode := loopSetup .sp3loop0 true

end Opcodes

/-- An instruction of an opcode, not yet split. -/
def Opcode.insn (o : Opcode) (regno : List Nat) (immed : List (BitVec 32))
    (h : ∀ d ∈ (o.regs.zipIdx), regno.getD d.2 0 < d.1.limit) : Insn where
  opcode := o
  regno := regno
  immed := immed
  part1 := false
  extensionValid := false
  regno_lt i d hd := h (d, i) (List.mk_mem_zipIdx_iff_getElem?.2 hd)

theorem Opcodes.a2Nop_fits : ∀ d ∈ Opcodes.a2Nop.regs.zipIdx, [].getD d.2 0 < d.1.limit := by
  decide

theorem Opcodes.a4Ext_fits : ∀ d ∈ Opcodes.a4Ext.regs.zipIdx, [].getD d.2 0 < d.1.limit := by
  decide

theorem Opcodes.l2Deallocframe_fits : ∀ d ∈ Opcodes.l2Deallocframe.regs.zipIdx, [30, 30].getD d.2 0 < d.1.limit := by
  decide

end Hex
