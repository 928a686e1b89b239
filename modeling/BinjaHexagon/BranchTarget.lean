import BinjaHexagon.BranchRun
import BinjaHexagon.PacketDecode
/-!
# BranchTarget — where a direct branch goes, said four times

The target that is reported, the pointer of the emitted jump or call, the loop start a set-up writes, and the address
token of the disassembly: `pc + immed[0]` in 64 bits in three places, aligned and in 32 bits in the fourth.
-/
namespace Hex

open Bytes (norm)
open Flow (Block)

section Arithmetic

theorem toNat_pcalign (v : BitVec 32) : (v &&& ~~~(3 : BitVec 32)).toNat = v.toNat / 4 * 4 := by
  have hshift : v &&& ~~~(3 : BitVec 32) = (v >>> 2) <<< 2 := by
    refine BitVec.eq_of_getLsbD_eq fun i hi => ?_
    rw [BitVec.getLsbD_and, BitVec.getLsbD_not, BitVec.getLsbD_shiftLeft, BitVec.getLsbD_ushiftRight]
    by_cases h : i < 2
    · have : i = 0 ∨ i = 1 := by omega
      rcases this with rfl | rfl <;> simp
    · have h3 : (3 : BitVec 32).getLsbD i = false := Nat.testBit_lt_two_pow (by
        calc 3 < 2 ^ 2 := by decide
          _ ≤ 2 ^ i := Nat.pow_le_pow_right (by decide) (by omega))
      rw [h3, show 2 + (i - 2) = i by omega]
      simp [h, hi]
  have hlt := v.isLt
  rw [hshift, BitVec.toNat_shiftLeft, BitVec.toNat_ushiftRight, Nat.shiftRight_eq_div_pow, Nat.shiftLeft_eq]
  omega

theorem and_three_eq_zero_iff (v : BitVec 32) : v &&& 3 = 0 ↔ v.toNat % 4 = 0 := by
  rw [← BitVec.toNat_inj, BitVec.toNat_and]
  have : v.toNat &&& (3 : BitVec 32).toNat = v.toNat % 4 := Nat.and_two_pow_sub_one_eq_mod v.toNat 2
  rw [this]
  rfl

/-- The 64-bit sum is the aligned 32-bit one only where nothing is cut off. -/
theorem target_eq_iff (pc v : BitVec 32) : pc.setWidth 64 + v.signExtend 64 = (pc + (v &&& ~~~3)).setWidth 64 ↔
    v &&& 3 = 0 ∧ 0 ≤ pc.toNat + v.toInt ∧ pc.toNat + v.toInt < 2 ^ 32 := by
  have hpc := pc.isLt
  have hv := v.isLt
  rw [and_three_eq_zero_iff, ← BitVec.toNat_inj, BitVec.toNat_add, BitVec.toNat_setWidth, BitVec.toNat_setWidth,
    BitVec.toNat_add, toNat_pcalign, BitVec.toNat_signExtend, BitVec.toNat_setWidth, BitVec.toInt_eq_msb_cond]
  cases v.msb <;> simp only [Bool.false_eq_true, if_true, if_false] <;> omega

end Arithmetic

/-- A row of the table for the generator of the text functions: the letters of the immediates of its syntax, in
order. -/
structure TextRow where
  row : OpcodeRow
  imms : List ImmLetter
  isJumpseti : Bool
  memlikePacketRules : Bool

/-- `CodeRelativeAddressToken` or `IntegerToken`, of the immediate with this number. -/
inductive ImmToken where
  | address (ii : Nat)
  | integer (ii : Nat)
  deriving Repr, DecidableEq

namespace TextRow

variable (o : TextRow)

def isNewValueJump : Bool := o.row.attrib .jump && o.row.attrib .dotnewvalue && o.memlikePacketRules

def isWriteToLoopStart : Bool := o.row.attrib .implicitWritesSa0 || o.row.attrib .implicitWritesSa1

/-- `immlett.isupper()`. -/
def immIndex : ImmLetter → Nat
  | .R | .S | .U => 1
  | .r | .s | .u | .m => 0

/-- `InsnTreeTransformer.imm` for one immediate after the other; nothing where its `assert` fails. -/
def immTokens : (seenCmpjumpImm seenLoopImm : Bool) → List ImmLetter → Option (List ImmToken)
  | _, _, [] => some []
  | seenCmpjumpImm, seenLoopImm, l :: ls =>
    let branches := o.row.attrib .jump || o.row.attrib .call
    let several := branches && decide (1 < o.imms.length)
    if several && !(o.imms.length == 2 && (o.isJumpseti || o.row.attrib .newcmpjump || o.isNewValueJump)) then none
    else do
      let place := if several then seenCmpjumpImm else branches
      let place := if o.isWriteToLoopStart then !seenLoopImm else place
      let tokens ← immTokens (seenCmpjumpImm || several) (seenLoopImm || o.isWriteToLoopStart) ls
      some ((if place then .address (immIndex l) else .integer (immIndex l)) :: tokens)

def tokens : Option (List ImmToken) := o.immTokens false false o.imms

end TextRow

/-- The value of an address token: `pc + insn.immed[ii]`. -/
def ImmToken.value (pc : BitVec 64) (i : Insn) : ImmToken → Option (BitVec 64)
  | .address ii => some (pc + (i.imm ii).signExtend 64)
  | .integer _ => none

/-- The rows of direct jumps and calls, compound and new-value jumps among them. -/
structure DirectRow (o : TextRow) : Prop where
  branch : o.row.attrib .jump = true ∨ o.row.attrib .call = true
  direct : o.row.attrib .indirect = false
  notReturn : o.row.attrib .bnReturn = false
  notSystem : o.row.attrib .bnSystem = false
  notHint : o.row.tag ≠ .j4Hintjumpr
  notLoop : o.isWriteToLoopStart = false
  imms : o.imms = [.r] ∨ o.imms = [.U, .r] ∧ (o.isJumpseti || o.row.attrib .newcmpjump || o.isNewValueJump) = true

/-- The rows of the loop set-ups. -/
def loopText (k : Opcodes.LoopKind) (imm : Bool) : TextRow where
  row := Opcodes.loopRow k imm
  imms := if imm then [.r, .U] else [.r]
  isJumpseti := false
  memlikePacketRules := false

/-- The instructions with a target in their first immediate. -/
inductive TargetRow : TextRow → Prop
  | direct {o : TextRow} (h : DirectRow o) : TargetRow o
  | loop (k : Opcodes.LoopKind) (imm : Bool) : TargetRow (loopText k imm)

def Control.dest : Control → LExpr Nat
  | .jump d | .ret d | .call d => d

def hexRegLc (n : Nat) : Nat := if n = 0 then hexRegLc0 else hexRegLc1

def hexRegSa (n : Nat) : Nat := if n = 0 then hexRegSa0 else hexRegSa1

/-- `(PC + (immediate & ~3)) mod 2^32`. -/
def Insn.branchTarget (i : Insn) (pc : BitVec 32) : BitVec 64 := (pc + (i.imm 0 &&& ~~~3)).setWidth 64

/-- The four targets are one. -/
structure OneTarget (o : TextRow) (i : Insn) (pc : BitVec 32) : Prop where
  reported : i.isJump = true ∨ i.isCall = true → ∀ size hasCj hasUcj,
    (i.infoBranches (pc.setWidth 64) size hasCj hasUcj).head?.bind InfoBranch.target = some (i.branchTarget pc)
  pointer : i.isJump = true ∨ i.isCall = true → ∀ n (s : PhysState),
    (i.control (pc.setWidth 64) n).dest.eval s = i.branchTarget pc
  loopStart : ∀ k imm, o.row = Opcodes.loopRow k imm → ∀ n ctx (s : PhysState),
    ((lift (pc.setWidth 64) i n ctx).body.run bodySem s).get 4 (.hex (hexRegSa k.index)) = i.branchTarget pc
  token : ∃ l, o.tokens = some l ∧ l.filterMap (ImmToken.value (pc.setWidth 64) i) = [i.branchTarget pc]

section Loop

variable {k : Opcodes.LoopKind} {imm : Bool} {i : Insn}

def loopCount (i : Insn) (imm : Bool) : LExpr Nat :=
  if imm then .const 4 ((i.imm 1).signExtend 64) else .register 4 (.hex (mapRegNum .R (i.reg 0)))

def loopStart (pc : BitVec 64) (i : Insn) : LExpr Nat :=
  .binop .add 4 (.constPointer 4 pc) (.const 4 ((i.imm 0 &&& ~~~3).signExtend 64))

/-- The instructions of a set-up. -/
def loopCode (pc : BitVec 64) (i : Insn) (k : Opcodes.LoopKind) (imm : Bool) : List (LInsn Nat) :=
  [.setRegister 4 (.hex (hexRegLc k.index)) (loopCount i imm),
    .setRegister 4 (.hex (hexRegSa k.index)) (loopStart pc i)] ++
      (k.lpcfg.map fun n => .setRegister 1 (.hex hexRegUsrLpcfg) (.const 4 (BitVec.ofNat 64 n))).toList ++
        if k.pipelined then [.setRegister 1 (.temp (Temp.reg 0 hexRegP3).index) (.const 4 0)] else []

theorem emitted_loopSetup (h : i.opcode.toOpcodeRow = Opcodes.loopRow k imm) (pc : BitVec 64) (n : Nat)
    (ctx : PacketContext) :
    LiftBlock.emitted (lift pc i n ctx).body = Block.ofList ((loopCode pc i k imm).map .il) := by
  obtain ⟨⟨row, _, _, _, _⟩, regno, immed, part1, ext, _⟩ := i
  dsimp only at h
  subst h
  cases k <;> cases imm <;> rfl

/-- **A set-up writes the count, the start, and `LPCFG` and `P3` where it is of loop 0 or pipelined.** -/
theorem run_loopSetup (h : i.opcode.toOpcodeRow = Opcodes.loopRow k imm) (pc : BitVec 64) (n : Nat)
    (ctx : PacketContext) (s : PhysState) :
    (lift pc i n ctx).body.run bodySem s = execAll (loopCode pc i k imm) s := by
  rw [← run_emitted (fun _ s => s), emitted_loopSetup h, run_ofList_il]

theorem setWidth_signExtend (v : BitVec 32) : (v.signExtend 64).setWidth 32 = v := by
  refine BitVec.eq_of_getLsbD_eq fun j hj => ?_
  rw [BitVec.getLsbD_setWidth, BitVec.getLsbD_signExtend]
  simp [hj, show j < 64 by omega]

theorem norm_add (a b : BitVec 64) : norm 4 (norm 4 a + norm 4 b) = (a.setWidth 32 + b.setWidth 32).setWidth 64 := by
  unfold Bytes.norm
  rw [BitVec.setWidth_add _ _ (by decide), BitVec.setWidth_setWidth_of_le _ (by decide),
    BitVec.setWidth_setWidth_of_le _ (by decide)]
  simp

theorem loopStart_eval (i : Insn) (pc : BitVec 32) (s : PhysState) :
    (loopStart (pc.setWidth 64) i).eval s = i.branchTarget pc := by
  have h := norm_add (pc.setWidth 64) ((i.imm 0 &&& ~~~3).signExtend 64)
  rw [setWidth_signExtend, BitVec.setWidth_setWidth_of_le _ (by decide), BitVec.setWidth_eq] at h
  exact h

theorem norm_branchTarget (i : Insn) (pc : BitVec 32) : norm 4 (i.branchTarget pc) = i.branchTarget pc := by
  unfold Bytes.norm Insn.branchTarget
  rw [BitVec.setWidth_setWidth_of_le (pc + (i.imm 0 &&& ~~~3)) (show 8 * 4 ≤ 64 by decide), BitVec.setWidth_eq]

theorem sa_loopCode (pc : BitVec 32) (i : Insn) (k : Opcodes.LoopKind) (imm : Bool) (s : PhysState) :
    (execAll (loopCode (pc.setWidth 64) i k imm) s).get 4 (.hex (hexRegSa k.index)) = i.branchTarget pc := by
  have hsa : ∀ s : PhysState, ((s.setReg 4 (hexRegSa k.index) ((loopStart (pc.setWidth 64) i).eval s)).get 4
      (.hex (hexRegSa k.index))) = i.branchTarget pc := fun s => by
    rw [State.get_setReg_same _ _ _ _ (by decide), loopStart_eval, norm_branchTarget]
  cases k <;> exact hsa _

end Loop

section Tokens

variable {o : TextRow} {i : Insn}

theorem tokens_direct (h : DirectRow o) : o.tokens = some [.address 0] ∨ o.tokens = some [.integer 1, .address 0] := by
  have hbranch : (o.row.attrib .jump || o.row.attrib .call) = true := by simpa using h.branch
  unfold TextRow.tokens
  rcases h.imms with himms | ⟨himms, hkind⟩
  · rw [himms]
    simp only [TextRow.immTokens, hbranch, himms, h.notLoop]
    exact .inl rfl
  · rw [himms]
    simp only [TextRow.immTokens, hbranch, himms, h.notLoop, hkind]
    exact .inr rfl

theorem tokens_loop (k : Opcodes.LoopKind) (imm : Bool) :
    (loopText k imm).tokens = some (if imm then [.address 0, .integer 1] else [.address 0]) := by
  cases k <;> cases imm <;> rfl

theorem tokens_target (h : TargetRow o) (pc : BitVec 64) :
    ∃ l, o.tokens = some l ∧ l.filterMap (ImmToken.value pc i) = [pc + (i.imm 0).signExtend 64] := by
  cases h with
  | direct h =>
    rcases tokens_direct h with ht | ht
    · exact ⟨_, ht, rfl⟩
    · exact ⟨_, ht, rfl⟩
  | loop k imm =>
    refine ⟨_, tokens_loop k imm, ?_⟩
    cases imm <;> rfl

end Tokens

section Direct

variable {o : TextRow} {i : Insn} (hi : i.opcode.toOpcodeRow = o.row)

include hi

theorem infoBranches_direct (h : DirectRow o) (pc : BitVec 64) (size : Nat) (cj ucj : Bool) :
    (i.infoBranches pc size cj ucj).head?.bind InfoBranch.target = some (i.target pc) := by
  have hret : i.isReturn = false := by rw [Insn.isReturn, Insn.attrib, hi, h.notReturn]
  have hsys : i.isSystem = false := by rw [Insn.isSystem, Insn.attrib, hi, h.notSystem]
  have hind : i.isIndirect = false := by rw [Insn.isIndirect, Insn.attrib, hi, h.direct, Bool.false_and]
  unfold Insn.infoBranches
  rw [hret, hsys, hind]
  by_cases hjump : i.isJump = true
  · rw [hjump]
    cases i.isCondJump <;> rfl
  · have hcall : i.isCall = true := by
      rcases h.branch with hb | hb
      · refine absurd ?_ hjump
        rw [Insn.isJump, Insn.attrib, hi, hb, Bool.true_and, bne_iff_ne]
        exact h.notHint
      · rw [Insn.isCall, Insn.attrib, hi, hb]
    rw [Bool.not_eq_true] at hjump
    rw [hjump, hcall]
    rfl

theorem control_direct (h : DirectRow o) (pc : BitVec 32) (n : Nat) (s : PhysState) :
    (i.control (pc.setWidth 64) n).dest.eval s = (pc + i.imm 0).setWidth 64 := by
  have hind : i.isIndirect = false := by rw [Insn.isIndirect, Insn.attrib, hi, h.direct, Bool.false_and]
  have heval : norm 4 (pc.setWidth 64 + (i.imm 0).signExtend 64) = (pc + i.imm 0).setWidth 64 := by
    unfold Bytes.norm
    rw [BitVec.setWidth_add _ _ (by decide), setWidth_signExtend, BitVec.setWidth_setWidth_of_le _ (by decide),
      BitVec.setWidth_eq]
  unfold Insn.control
  rw [hind]
  cases i.isJump <;> exact heval

theorem not_branch_loop {k : Opcodes.LoopKind} {imm : Bool} (h : o.row = Opcodes.loopRow k imm) :
    ¬ (i.isJump = true ∨ i.isCall = true) := by
  have hjump : i.isJump = false := by
    rw [Insn.isJump, Insn.attrib, hi, h]
    cases k <;> cases imm <;> rfl
  have hcall : i.isCall = false := by
    rw [Insn.isCall, Insn.attrib, hi, h]
    cases k <;> cases imm <;> rfl
  rw [hjump, hcall]
  decide

end Direct

/-- **The targets of a direct jump, call or loop set-up are one exactly when the immediate is a multiple of four and the
sum stays in the address space.** -/
theorem one_target_iff (o : TextRow) (ho : TargetRow o) (i : Insn) (hi : i.opcode.toOpcodeRow = o.row)
    (pc : BitVec 32) :
    OneTarget o i pc ↔ i.imm 0 &&& 3 = 0 ∧ 0 ≤ pc.toNat + (i.imm 0).toInt ∧ pc.toNat + (i.imm 0).toInt < 2 ^ 32 := by
  rw [← target_eq_iff]
  constructor
  · intro h
    obtain ⟨l, hl, hval⟩ := h.token
    obtain ⟨l', hl', hval'⟩ := tokens_target (i := i) ho (pc.setWidth 64)
    obtain rfl := Option.some.inj (hl.symm.trans hl')
    rw [hval] at hval'
    exact (List.cons.inj hval').1.symm
  · intro heq
    have htarget : i.target (pc.setWidth 64) = i.branchTarget pc := heq
    refine ⟨fun hb size cj ucj => ?_, fun hb n s => ?_, fun k imm hk n ctx s => ?_, ?_⟩
    · cases ho with
      | direct h => rw [infoBranches_direct hi h, htarget]
      | loop k imm => exact absurd hb (not_branch_loop hi rfl)
    · cases ho with
      | direct h =>
        have haligned := (and_three_eq_zero_iff (i.imm 0)).1 ((target_eq_iff pc (i.imm 0)).1 heq).1
        have hsame : i.imm 0 &&& ~~~3 = i.imm 0 := by
          refine BitVec.eq_of_toNat_eq ?_
          rw [toNat_pcalign]
          omega
        rw [control_direct hi h, Insn.branchTarget, hsame]
      | loop k imm => exact absurd hb (not_branch_loop hi rfl)
    · rw [run_loopSetup (hi.trans hk), sa_loopCode]
    · obtain ⟨l, hl, hval⟩ := tokens_target (i := i) ho (pc.setWidth 64)
      exact ⟨l, hl, by rw [hval]; exact congrArg (fun v => [v]) heq⟩

/-- `jump #r22:2` -/
def jumpText : TextRow := ⟨Opcodes.j2Jump.toOpcodeRow, [.r], false, false⟩

/-- `{ jump #16 }` at `0x1000`. -/
theorem one_target_iff_jump : OneTarget jumpText (Opcodes.j2Jump.insn [] [16] (by decide)) 0x1000 := by
  refine (one_target_iff jumpText (.direct ⟨.inl rfl, rfl, rfl, rfl, by decide, rfl, .inl rfl⟩) _ rfl 0x1000).2 ?_
  decide

/-- `{ immext(#0); jump ##1 }` at `0x1000`, `{ jump #-8 }` at 4, and `{ immext(#0); loop0(##1,#3) }` at `0x1000`. -/
theorem targets_differ : ¬ OneTarget jumpText (Opcodes.j2Jump.insn [] [1] (by decide)) 0x1000 ∧
    ¬ OneTarget jumpText (Opcodes.j2Jump.insn [] [-8] (by decide)) 4 ∧
    ¬ OneTarget (loopText .loop0 true) (Opcodes.j2Loop0i.insn [] [1, 3] (by decide)) 0x1000 := by
  refine ⟨fun h => ?_, fun h => ?_, fun h => ?_⟩
  · exact absurd (h.reported (.inl rfl) 8 false false) (by decide)
  · exact absurd (h.reported (.inl rfl) 4 false false) (by decide)
  · obtain ⟨l, hl, hval⟩ := h.token
    obtain rfl := Option.some.inj hl
    exact absurd hval (by decide)

end Hex
