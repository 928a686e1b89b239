import BinjaHexagon.Transformer
/-!
# Insn — opcodes, instructions and packets

An opcode is the row that the generated tables hold for it: its attributes, its operands in the order of its syntax, and
the behaviour `preprocess_semantics` leaves of it.  A row the generator would fail on cannot be built.
-/
namespace Hex

/-- The opcodes the C and C++ code names; every other one is `other`. -/
inductive Tag where
  | j2Jumpr | j4Hintjumpr | j2Rte | j2Trap0 | j2Trap1 | j2Pause
  | j2Endloop0 | j2Endloop1 | j2Endloop01 | a4Ext
  | other (n : Nat)
  deriving Repr, DecidableEq

/-- The attributes the modelled code asks for. -/
inductive Attrib where
  | jump | call | indirect | bnCondJ | bnReturn
  | store | load | dotnewvalue | newcmpjump | itExtender | subinsn | extension
  | implicitWritesP0 | implicitWritesP3 | hwloop0End | hwloop1End
  | extendable | implicitWritesSa0 | implicitWritesSa1 | bnSystem
  | cvi | cviNew | cviTmp | cviScatterRelease
  deriving Repr, DecidableEq

/-- One register operand of the syntax; `isNew` is `is_new_val`: the behaviour names it with `N`. -/
structure OperandDecl where
  regtype : RegType
  regid : RegId
  isNew : Bool
  deriving Repr, DecidableEq

/-- How the generated code declares an operand. -/
inductive DeclKind where
  | sourcePair
  | plain
  | dest (rw : Bool) (size : Nat)
  deriving Repr, DecidableEq

/-- `genptr_decl`. -/
def genptrDecl (t : RegType) (id : RegId) : Option DeclKind :=
  match t, id.pair, id.letter with
  | .R, true, .s | .R, true, .t => some .sourcePair
  | .R, true, .d | .R, true, .e => some (.dest false 8)
  | .R, true, .x | .R, true, .y => some (.dest true 8)
  | .R, false, .s | .R, false, .t | .R, false, .u | .R, false, .v => some .plain
  | .R, false, .d | .R, false, .e => some (.dest false 4)
  | .R, false, .x | .R, false, .y => some (.dest true 4)
  | .P, false, .s | .P, false, .t | .P, false, .u | .P, false, .v => some .plain
  | .P, false, .d | .P, false, .e => some (.dest false 1)
  | .P, false, .x => some (.dest true 1)
  | .C, true, .s => some .sourcePair
  | .C, true, .d => some (.dest false 8)
  | .C, false, .s => some .plain
  | .C, false, .d => some (.dest false 4)
  | _, _, _ => none

/-- `genptr_decl_new`. -/
def genptrDeclNew (t : RegType) (id : RegId) : Option DeclKind :=
  match t, id.pair, id.letter with
  | .N, false, .s | .N, false, .t => some (.dest false 4)
  | .P, false, .t | .P, false, .u | .P, false, .v => some (.dest false 1)
  | _, _, _ => none

namespace OperandDecl

/-- `genptr_decl_opn`. -/
def kind (o : OperandDecl) : Option DeclKind :=
  if o.regid.pair then genptrDecl o.regtype o.regid
  else if o.isNew then genptrDeclNew o.regtype o.regid
  else genptrDecl o.regtype o.regid

/-- The C++ variable it declares. -/
def name (o : OperandDecl) : RegName :=
  if o.isNew then .newN o.regtype o.regid else .oldV o.regtype o.regid

/-- What `regno` can hold: two bits for a predicate, five for any other register. -/
def limit (o : OperandDecl) : Nat := if o.regtype = .P then 4 else 32

end OperandDecl

structure OpcodeRow where
  tag : Tag
  attribs : List Attrib
  regs : List OperandDecl
  parts : List Stmt
  supported : Bool
  deriving Repr, DecidableEq

/-- One of `EA`, `tmp`, `width`, `offset`, `shamt`. -/
def RegName.isScratch : RegName → Bool
  | .eaReg | .tmpReg | .widthReg | .offsetReg | .shamtReg => true
  | _ => false

/-- What a step of the behaviour reads and writes; an `IlBranch` is not written out. -/
def GenItem.access : GenItem ⊕ GExpr → Option (Access RegName)
  | .inl (.insn i) => some (.ofInsn i)
  | .inl (.branch _ _) => some ⟨[], []⟩
  | .inl (.pcalign _) => none
  | .inr c => some (.ofExpr c)

/-- Along a path no source operand is assigned, and a scratch variable is assigned before it is read. -/
def scopedPath (sources : List RegName) : List RegName → List (Access RegName) → Bool
  | _, [] => true
  | set, a :: p =>
    a.uses.all (fun r => !r.isScratch || set.contains r) && a.sets.all (!sources.contains ·) &&
      scopedPath sources (a.sets ++ set) p

/-- `process_semantics`, part by part. -/
def processSemantics (condJ : Bool) : List Stmt → Option (List GBlock)
  | [] => some []
  | p :: ps => do
    let b ← p.transform condJ
    let bs ← processSemantics condJ ps
    some (b :: bs)

namespace OpcodeRow

/-- `GET_ATTRIB`. -/
def attrib (o : OpcodeRow) (a : Attrib) : Bool := o.attribs.contains a

/-- `process_semantics` of every part. -/
def gen (o : OpcodeRow) : Option (List GBlock) := processSemantics (o.attrib .bnCondJ) o.parts

/-- What `gen_il_func` asserts of a supported row, and the number of its parts. -/
def generates (o : OpcodeRow) : Bool :=
  o.gen.isSome && o.regs.all (fun d => d.kind.isSome) &&
    o.parts.length == if o.attrib .newcmpjump then 2 else 1

/-- The operands the lift function does not declare as destinations. -/
def sources (o : OpcodeRow) : List RegName :=
  (o.regs.filter fun d => d.kind == some .sourcePair || d.kind == some .plain).map OperandDecl.name

/-- How every row of the table uses its names: no two operands share one, sources stay as they are, and `EA` and the
other scratch variables are set before they are read. -/
def wellScoped (o : OpcodeRow) : Bool :=
  decide (o.regs.map OperandDecl.name).Nodup &&
    (o.gen.getD []).all fun b => b.paths.all fun p => scopedPath o.sources [] (p.filterMap GenItem.access)

/-- An instruction the end of a hardware loop is marked with. -/
def endsLoop (o : OpcodeRow) : Bool := o.attrib .hwloop0End || o.attrib .hwloop1End

/-- `opcode_wregs` names `Pd4` or `Pe4`. -/
def writesPredOperand (o : OpcodeRow) : Bool :=
  o.regs.any fun d => d.regtype == .P && !d.regid.pair && (d.regid.letter == .d || d.regid.letter == .e)

/-- What the compare pass of the shuffle sends to the front. -/
def isCompare (o : OpcodeRow) : Bool :=
  (o.writesPredOperand && !o.attrib .store) || (o.attrib .implicitWritesP3 && !o.endsLoop) ||
    (o.attrib .implicitWritesP0 && !o.attrib .newcmpjump)

/-- None of the attributes `l`. -/
def lacks (o : OpcodeRow) (l : List Attrib) : Bool := l.all fun a => !o.attrib a

/-- The opcodes that change the flow of control without an attribute that says so. -/
def isSystem (o : OpcodeRow) : Bool := o.tag == .j2Trap0 || o.tag == .j2Trap1 || o.tag == .j2Rte || o.tag == .j2Pause

/-- How the attributes of every row of the table go together: a constant extender, an endloop, a compare, a store, a
compound jump, a vector instruction and a trap are each nothing that the decoder treats otherwise. -/
def consistent (o : OpcodeRow) : Bool :=
  o.attrib .itExtender == (o.tag == .a4Ext) &&
    o.endsLoop == (o.tag == .j2Endloop0 || o.tag == .j2Endloop1 || o.tag == .j2Endloop01) &&
    (!o.attrib .itExtender ||
      !o.endsLoop && o.lacks [.extendable, .store, .load, .dotnewvalue, .newcmpjump, .jump, .call, .subinsn, .cvi]) &&
    (!o.endsLoop || o.lacks [.extendable, .store, .load, .dotnewvalue, .newcmpjump, .cvi]) &&
    (!o.isCompare || o.lacks [.store, .load, .dotnewvalue, .jump, .call]) &&
    (!o.attrib .store || o.lacks [.jump, .call]) &&
    (!o.attrib .load || o.lacks [.dotnewvalue]) &&
    (!o.attrib .cvi || o.lacks [.extendable, .newcmpjump]) &&
    ((!o.attrib .cviNew || o.attrib .cvi) && (!o.isSystem || !o.isCompare && o.lacks [.store, .load, .dotnewvalue]))

end OpcodeRow

structure Opcode extends OpcodeRow where
  generated : toOpcodeRow.supported = true → toOpcodeRow.generates = true
  wellScoped : toOpcodeRow.supported = true → toOpcodeRow.wellScoped = true
  hint_not_call : toOpcodeRow.tag = .j4Hintjumpr → toOpcodeRow.attrib .call = false
  consistent : toOpcodeRow.consistent = true := by decide

structure Insn where
  opcode : Opcode
  regno : List Nat
  immed : List (BitVec 32)
  part1 : Bool
  extensionValid : Bool
  regno_lt : ∀ i d, opcode.regs[i]? = some d → regno.getD i 0 < d.limit

namespace Insn

def attrib (i : Insn) (a : Attrib) : Bool := i.opcode.attrib a

/-- `IsJump`. -/
def isJump (i : Insn) : Bool := i.attrib .jump && i.opcode.tag != .j4Hintjumpr
/-- `IsCall`. -/
def isCall (i : Insn) : Bool := i.attrib .call
/-- `IsIndirect`. -/
def isIndirect (i : Insn) : Bool := i.attrib .indirect && i.opcode.tag != .j4Hintjumpr
/-- `IsCondJump`. -/
def isCondJump (i : Insn) : Bool := i.attrib .bnCondJ
/-- `IsReturn`. -/
def isReturn (i : Insn) : Bool := i.attrib .bnReturn

/-- `insn.regno[i]`. -/
def reg (i : Insn) (n : Nat) : Nat := i.regno.getD n 0

/-- `insn.immed[i]`. -/
def imm (i : Insn) (n : Nat) : BitVec 32 := i.immed.getD n 0

end Insn

def instructionsMax : Nat := 7

structure Packet where
  insn : List Insn
  pktHasCof : Bool
  encodPktSizeInBytes : Nat

end Hex
