import BinjaHexagon.Insn
/-!
# GenIl — the generated lift functions

What `lift_<tag>` does when it is called for an instruction: declare the operands in the order of the syntax, declare
the fixed predicates the behaviour mentions, then add the behaviour's instructions.  `IlBranch` nodes are kept as marks
until the packet is written out; `gen_il_func` drops them.  Which LLIL temporary holds what, and `PacketContext`, come
first: the destination registers of a packet, each with the size and kind of the first operand that asked for it.
-/
namespace Hex

open Flow (Block)

/-- `MapRegNum`. -/
def mapRegNum (t : RegType) (regno : Nat) : Nat :=
  match t with
  | .R | .N => hexRegR00 + regno
  | .C => hexRegC00 + regno
  | .P => hexRegP0 + regno

/-- The logical variables the lifter keeps in LLIL temporaries. -/
inductive Temp where
  | reg (subspace : Nat) (reg : Nat)
  | ea | tmp | width | offset | shamt
  | branchrDest (insnNum : Nat)
  | branchTaken (insnNum : Nat)
  deriving Repr, DecidableEq

/-- The index each is given: `TempReg::Reg`, `EA_REG`, …, `BRANCHR_DEST_ARRAY`, `BRANCH_TAKEN_ARRAY`. -/
def Temp.index : Temp → Nat
  | .reg ss r => ss * numHexRegs + r
  | .ea => 100
  | .tmp => 101
  | .width => 104
  | .offset => 105
  | .shamt => 106
  | .branchrDest i => 200 + i
  | .branchTaken i => 210 + i

/-- `TempReg::CopyToTemp`. -/
def copyToTemp (size : Nat) (r : Nat) (ss : Nat) : LInsn Temp :=
  if size = 8 then .setRegister 8 (.temp (.reg ss r)) (.registerSplit 4 (.hex (r + 1)) (.hex r))
  else .setRegister size (.temp (.reg ss r)) (.register size (.hex r))

structure DestReg where
  rw : Bool
  size : Nat
  reg : Nat
  deriving Repr, DecidableEq

/-- `TempReg::CopyFromTemp`. -/
def DestReg.copyFromTemp (d : DestReg) : LInsn Temp :=
  if d.size = 8 then .setRegisterSplit 4 (.hex (d.reg + 1)) (.hex d.reg) (.register 8 (.temp (.reg 0 d.reg)))
  else .setRegister d.size (.hex d.reg) (.register d.size (.temp (.reg 0 d.reg)))

/-- `regs_`, oldest registration first; no register has two entries. -/
structure PacketContext where
  regs : List DestReg
  nodup : (regs.map DestReg.reg).Nodup

namespace PacketContext

def empty : PacketContext := ⟨[], List.nodup_nil⟩

/-- `regs_.find(reg)`. -/
def find (ctx : PacketContext) (r : Nat) : Option DestReg := ctx.regs.find? (·.reg == r)

/-- `AddDestReg`: the context after it, and the instructions it adds. -/
def addDestReg (ctx : PacketContext) (rw : Bool) (size : Nat) (r : Nat) : PacketContext × List (LInsn Temp) :=
  if h : r ∈ ctx.regs.map DestReg.reg then (ctx, [])
  else
    (⟨ctx.regs ++ [⟨rw, size, r⟩], by
        rw [List.map_append, List.nodup_append]
        refine ⟨ctx.nodup, List.nodup_singleton _, fun a ha b hb => ?_⟩
        obtain rfl : b = r := List.mem_singleton.1 hb
        rintro rfl
        exact h ha⟩,
      if rw then [copyToTemp size r 0] else [])

end PacketContext

/-- One thing a lift function does in order: add an instruction, or pass a dropped `IlBranch`. -/
inductive LiftAct where
  | il (i : LInsn Temp)
  | branch (k : BranchKind) (dest : LExpr Temp)
  deriving Repr, DecidableEq

abbrev LiftBlock := Block LiftAct (LExpr Temp)

/-- What a predicate macro contributes to the text `genptr_decl_fixed_pred` looks at: a digit, or something else. -/
abbrev PredText := List (Option Nat)

def Expr.predText : Expr → PredText
  | .operand _ => []
  | .neg e | .not e | .bitNot e => e.predText
  | .binop _ a b | .relop _ a b | .call2 _ a b => a.predText ++ b.predText
  | .call0 .fReadP0 => [some 0]
  | .call0 _ => []
  | .call1 .fLsbnew (.operand (.intcon n)) => [some n]
  | .call1 .fLsbnew _ => [none]
  | .call1 _ e => e.predText

def Stmt.predText : Stmt → PredText
  | .skip | .fImmext _ | .fPcalign _ | .fTrap | .fBreak | .fLoad _ _ _ => []
  | .seq s t => s.predText ++ t.predText
  | .assg _ e | .assgBinop _ _ e => e.predText
  | .ifThen c t => c.predText ++ t.predText
  | .ifElse c t f => c.predText ++ (t.predText ++ f.predText)
  | .fBranch e _ | .fStore _ e | .fStoreLocked _ e _ | .fWriteFp e | .fWriteLr e | .fWriteSp e | .fSetLpcfg e
  | .fWriteLc _ e | .fSethalf _ _ e | .fSetword _ _ e => e.predText
  | .fJumpr a b _ | .fWriteLoopRegs _ a b => a.predText ++ b.predText
  | .fWriteP n _ => [some n]

/-- `genptr_decl_fixed_pred`: a part whose text is one digit of `0123` declares that predicate, once. -/
def fixedPreds : List Stmt → List Nat
  | [] => []
  | p :: ps =>
    match p.predText with
    | [some n] => if n < 4 then n :: (fixedPreds ps).filter (· != n) else fixedPreds ps
    | _ => fixedPreds ps

/-- What a lift function has declared so far. -/
structure LiftState where
  ctx : PacketContext
  env : List (RegName × LReg Temp)
  code : List (LInsn Temp)

namespace LiftState

/-- `const int name = ctx.AddDest…(r)`. -/
def addDest (st : LiftState) (name : RegName) (rw : Bool) (size : Nat) (r : Nat) : LiftState :=
  let k := st.ctx.addDestReg rw size r
  ⟨k.1, (name, .temp (.reg 0 r)) :: st.env, st.code ++ k.2⟩

/-- One `genptr_decl_opn` declaration. -/
def declare (i : Insn) (n : Nat) (d : OperandDecl) (st : LiftState) : LiftState :=
  let r := mapRegNum d.regtype (i.reg n)
  match d.kind with
  | none => st
  | some .plain => { st with env := (d.name, .hex r) :: st.env }
  | some .sourcePair =>
    { st with env := (d.name, .temp (.reg 1 r)) :: st.env, code := st.code ++ [copyToTemp 8 r 1] }
  | some (.dest rw size) => st.addDest d.name rw size r

def declareAll (i : Insn) : Nat → List OperandDecl → LiftState → LiftState
  | _, [], st => st
  | n, d :: ds, st => declareAll i (n + 1) ds (st.declare i n d)

def declarePreds : List Nat → LiftState → LiftState
  | [], st => st
  | n :: ns, st => declarePreds ns (st.addDest (.pd n) true 1 (mapRegNum .P n))

end LiftState

namespace Insn

/-- The `if (insn.part1)` of a compound jump. -/
def semantics (i : Insn) : GBlock :=
  match i.opcode.gen with
  | some [b] => b
  | some [b₁, b₂] => if i.part1 then b₁ else b₂
  | _ => .nil

def declared (i : Insn) (ctx : PacketContext) : LiftState :=
  LiftState.declarePreds (fixedPreds i.opcode.parts) (LiftState.declareAll i 0 i.opcode.regs ⟨ctx, [], []⟩)

/-- `int riV = insn.immed[0]`, and so on. -/
def immEnv (i : Insn) : ImmLetter → BitVec 32
  | .r | .s | .u | .m => i.imm 0
  | .R | .S | .U => i.imm 1

end Insn

/-- The register a C++ name stands for. -/
def resolveReg (env : List (RegName × LReg Temp)) (insnNum : Nat) : RegName → LReg Temp
  | .hexReg r => .hex r
  | .eaReg => .temp .ea
  | .tmpReg => .temp .tmp
  | .widthReg => .temp .width
  | .offsetReg => .temp .offset
  | .shamtReg => .temp .shamt
  | .branchrDest => .temp (.branchrDest insnNum)
  | .branchTaken => .temp (.branchTaken insnNum)
  | r => (env.lookup r).getD (.hex 0)

def resolveConst (pc : BitVec 64) (imms : ImmLetter → BitVec 32) : ConstName → BitVec 64
  | .imm l => (imms l).signExtend 64
  | .lit n => BitVec.ofNat 64 n
  | .pc => pc

/-- `IlReadGP`: the extender decides. -/
def resolveGp (extensionValid : Bool) (size : Nat) : LExpr Temp :=
  if extensionValid then .const size 0 else .register size (.hex hexRegGp)

/-- What stays the same while a lift function runs. -/
structure LiftEnv where
  regs : List (RegName × LReg Temp)
  insnNum : Nat
  pc : BitVec 64
  extensionValid : Bool

namespace LiftEnv

def expr (E : LiftEnv) (imms : ImmLetter → BitVec 32) (e : GExpr) : LExpr Temp :=
  e.subst (resolveReg E.regs E.insnNum) (resolveConst E.pc imms) (resolveGp E.extensionValid)

def insn (E : LiftEnv) (imms : ImmLetter → BitVec 32) (i : IlInsn RegName ConstName) : LInsn Temp :=
  i.subst (resolveReg E.regs E.insnNum) (resolveConst E.pc imms) (resolveGp E.extensionValid)

/-- `PCALIGN_MASK` is 3. -/
def item (E : LiftEnv) (imms : ImmLetter → BitVec 32) : GenItem → (ImmLetter → BitVec 32) × Option LiftAct
  | .insn i => (imms, some (.il (E.insn imms i)))
  | .branch k d => (imms, some (.branch k (E.expr imms d)))
  | .pcalign l => (Function.update imms l (imms l &&& ~~~3), none)

end LiftEnv

structure Lifted where
  ctx : PacketContext
  decls : List (LInsn Temp)
  body : LiftBlock

/-- `opcode_liftptr[insn.opcode](…)`, or `il.Undefined()` where there is none. -/
def lift (pc : BitVec 64) (i : Insn) (insnNum : Nat) (ctx : PacketContext) : Lifted :=
  if i.opcode.supported then
    let st := i.declared ctx
    let E : LiftEnv := ⟨st.env, insnNum, pc, i.extensionValid⟩
    ⟨st.ctx, st.code, (i.semantics.instantiate E.item E.expr i.immEnv).2⟩
  else ⟨ctx, [], .act (.il .undefined) .nil⟩

def Lifted.block (l : Lifted) : LiftBlock := Block.ofList (l.decls.map .il) ++ l.body

end Hex
