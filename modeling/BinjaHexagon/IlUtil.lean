import BinjaHexagon.FlowCode
import BinjaHexagon.GenIl
/-!
# IlUtil — `FillBnInstructionLowLevelIL`

The IL of a packet: the `BRANCH_TAKEN` flags cleared, every instruction lifted in the prepared order, the clobbered
registers written back, and the branches resolved.
-/
namespace Hex

open Flow (Block Instr Sem)

/-- LLIL names a temporary by its index alone. -/
abbrev PhysState := State Nat

/-- An instruction of the emitted function after which control goes on: a call comes back. -/
inductive EmitAct where
  | il (i : LInsn Nat)
  | call (dest : LExpr Nat)
  deriving Repr, DecidableEq

/-- An instruction of the emitted function that ends it. -/
inductive Transfer where
  | jump (dest : LExpr Nat)
  | ret (dest : LExpr Nat)
  deriving Repr, DecidableEq

abbrev EmitInstr := Instr EmitAct (LExpr Nat) Transfer

abbrev LReg.index : LReg Temp → LReg Nat := LReg.map Temp.index

/-- `IlBranch` nodes are not written out. -/
def LiftAct.emit : LiftAct → Option EmitAct
  | .il i => some (.il (i.map LReg.index))
  | .branch _ _ => none

def LiftBlock.emitted (b : LiftBlock) : Block EmitAct (LExpr Nat) :=
  b.filterMap LiftAct.emit (IlExpr.map LReg.index)

/-- The instructions of a packet lifted one after another, from `insn_num` on. -/
def liftInsns (pc : BitVec 64) : Nat → List Insn → PacketContext → List Lifted
  | _, [], _ => []
  | n, i :: is, ctx =>
    let l := lift pc i n ctx
    l :: liftInsns pc (n + 1) is l.ctx

/-- The context after the last of them. -/
def lastCtx (ctx : PacketContext) : List Lifted → PacketContext
  | [] => ctx
  | l :: ls => lastCtx l.ctx ls

/-- The order in which an `unordered_map` hands out its elements. -/
structure HashOrder where
  order : List DestReg → List DestReg
  perm : ∀ l, (order l).Perm l

/-- The order in which the registers were added. -/
def HashOrder.added : HashOrder := ⟨id, fun _ => .rfl⟩

/-- `il.SetRegister(1, BRANCH_TAKEN_ARRAY + i, il.Const(1, 0))`. -/
def clearFlag (n : Nat) : LInsn Nat := .setRegister 1 (.temp (Temp.branchTaken n).index) (.const 1 0)

/-- The flags cleared before the packet. -/
def clearTaken : Nat → List Insn → List (LInsn Nat)
  | _, [] => []
  | n, i :: is =>
    if !i.part1 && i.isCondJump then clearFlag n :: clearTaken (n + 1) is
    else clearTaken (n + 1) is

/-- `WriteClobberedRegs`. -/
def writeClobberedRegs (h : HashOrder) (ctx : PacketContext) : List (LInsn Nat) :=
  (h.order ctx.regs).map fun d => d.copyFromTemp.map LReg.index

/-- The transfers the tail can add for a branch. -/
inductive Control where
  | jump (dest : LExpr Nat)
  | ret (dest : LExpr Nat)
  | call (dest : LExpr Nat)
  deriving Repr, DecidableEq

/-- The transfer of a branch, chosen by the attributes of its opcode. -/
def Insn.control (pc : BitVec 64) (n : Nat) (i : Insn) : Control :=
  let target : LExpr Nat := .constPointer 4 (pc + (i.imm 0).signExtend 64)
  let dest : LExpr Nat := .register 4 (.temp (Temp.branchrDest n).index)
  if i.isIndirect && i.isJump then
    if i.isReturn || (i.opcode.tag == .j2Jumpr && i.reg 0 == hexRegLr) then .ret (.register 4 (.hex hexRegLr))
    else .jump dest
  else if i.isIndirect && i.isCall then .call dest
  else if i.isJump then .jump target
  else .call target

/-- A call is followed by a `Goto` past the packet's other branches. -/
def Control.code (done : Nat) : Control → List EmitInstr
  | .jump d => [.exit (.jump d)]
  | .ret d => [.exit (.ret d)]
  | .call d => [.act (.call d), .goto done]

/-- `!insn.part1`, and a branch. -/
def Insn.branches (i : Insn) : Bool := !i.part1 && (i.isJump || i.isCall)

def takenTest (n : Nat) : LExpr Nat :=
  .compare .equal 1 (.register 1 (.temp (Temp.branchTaken n).index)) (.const 1 1)

/-- The branches of the packet, in order; labels are taken from `l` on. -/
def branchTail (pc : BitVec 64) (done : Nat) : Nat → Nat → List Insn → List EmitInstr
  | _, _, [] => [.label done]
  | l, n, i :: is =>
    if i.branches then
      let branchCase := l
      let nextInsn := l + 1
      (if i.isCondJump then [.branch (takenTest n) branchCase nextInsn, .label branchCase] else []) ++
        ((i.control pc n).code done ++ .label nextInsn :: branchTail pc done (l + 2) (n + 1) is)
    else branchTail pc done l (n + 1) is

/-- The body of a packet's IL: everything before the write-back. -/
def packetBody (ls : List Lifted) : LiftBlock := Block.flatten (ls.map Lifted.block)

/-- `FillBnInstructionLowLevelIL` on a prepared packet. -/
def fillBnInstructionLowLevelIl (h : HashOrder) (pc : BitVec 64) (hasCof : Bool) (is : List Insn) : List EmitInstr :=
  let flags := if hasCof then clearTaken 0 is else []
  let ls := liftInsns pc 0 is .empty
  let body := (LiftBlock.emitted (packetBody ls)).emit Transfer 0
  let writeBack := writeClobberedRegs h (lastCtx .empty ls)
  let tail := if hasCof then branchTail pc body.2 (body.2 + 1) 0 is else []
  flags.map (fun i => .act (.il i)) ++ body.1 ++ writeBack.map (fun i => .act (.il i)) ++ tail

/-- What the emitted function does; `callee` is what a call does before it comes back. -/
def emitSem (callee : BitVec 64 → PhysState → PhysState) : Sem EmitAct (LExpr Nat) PhysState where
  exec
    | .il i, s => i.exec s
    | .call d, s => callee (d.eval s) s
  test := IlExpr.test

end Hex
