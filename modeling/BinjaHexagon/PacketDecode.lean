import BinjaHexagon.Decode
import BinjaHexagon.Opcodes
/-!
# PacketDecode — `decode_packet`

From words to a packet, with a log of the words read and of the places of `pkt->insn` written.  The decode tree and
the operand fields are generated when the plugin is built: `DecodeTables` stands for them.  Slot numbers are
assigned in `SlotNumber`.  Before it, what is asked of a packet that was decoded: `FindInstructionInPacket`, and what
`insn_util.cc` reports at its last instruction.
-/
namespace Hex

namespace Insn

/-- `IsSubInsn`. -/
def isSubInsn (i : Insn) : Bool := i.attrib .subinsn

/-- `IsSystem`. -/
def isSystem (i : Insn) : Bool := i.attrib .bnSystem

/-- The bytes an instruction takes; the endloop counts, though it takes none. -/
def size (i : Insn) : Nat := if i.isSubInsn then 2 else 4

end Insn

/-- The bytes of all instructions. -/
def insnBytes (l : List Insn) : Nat := (l.map Insn.size).sum

/-- `PacketDb::InsnInfo`. -/
structure InsnInfo where
  pc : Nat
  pkt : Packet
  insnNum : Nat
  insnAddr : Nat

/-- `for (; result.insn_num < result.pkt.num_insns; …)`. -/
def findInsn (addr : Nat) : Nat → Nat → List Insn → Nat × Nat
  | n, at', [] => (n, at')
  | n, at', i :: l =>
    if at' ≤ addr ∧ addr < at' + i.size then (n, at') else findInsn addr (n + 1) (at' + i.size) l

/-- `FindInstructionInPacket`. -/
def findInstructionInPacket (startAddr : Nat) (pkt : Packet) (addr : Nat) : InsnInfo :=
  { pc := startAddr, pkt := pkt, insnNum := (findInsn addr 0 startAddr pkt.insn).1,
    insnAddr := (findInsn addr 0 startAddr pkt.insn).2 }

/-- `GetLastInsn`. -/
def getLastInsn (pkt : Packet) : Int :=
  if pkt.insn.getLast?.any Insn.endsLoop then (pkt.insn.length : Int) - 2 else (pkt.insn.length : Int) - 1

/-- `BNBranchType`, as far as it is reported. -/
inductive BnBranchType where
  | functionReturn | systemCall | indirectBranch | trueBranch | falseBranch | unconditionalBranch | callDestination
  deriving Repr, DecidableEq

/-- `result.AddBranch(type, target)`. -/
structure InfoBranch where
  kind : BnBranchType
  target : Option (BitVec 64)
  deriving Repr, DecidableEq

/-- `input.pc + insn.immed[0]`. -/
def Insn.target (i : Insn) (pc : BitVec 64) : BitVec 64 := pc + (i.imm 0).signExtend 64

/-- The branches one instruction adds. -/
def Insn.infoBranches (i : Insn) (pc : BitVec 64) (size : Nat) (hasCj hasUcj : Bool) : List InfoBranch :=
  if i.isReturn then if i.isCondJump then [] else [⟨.functionReturn, none⟩]
  else if i.isSystem then if i.isCondJump then [] else [⟨.systemCall, none⟩]
  else if i.isJump then
    if i.isIndirect then if i.isCondJump then [] else [⟨.indirectBranch, none⟩]
    else if i.isCondJump then
      ⟨.trueBranch, some (i.target pc)⟩ ::
        if hasUcj then [] else [⟨.falseBranch, some (pc + BitVec.ofNat 64 size)⟩]
    else [⟨if hasCj then .falseBranch else .unconditionalBranch, some (i.target pc)⟩]
  else if i.isCall then if i.isIndirect then [] else [⟨.callDestination, some (i.target pc)⟩]
  else []

/-- `has_cj`: a direct, conditional jump. -/
def hasCj (l : List Insn) : Bool := l.any fun i => i.isJump && !i.isIndirect && i.isCondJump

/-- `has_ucj`: a direct, unconditional jump. -/
def hasUcj (l : List Insn) : Bool := l.any fun i => i.isJump && !i.isIndirect && !i.isCondJump

/-- The branches of a packet. -/
def packetBranches (pkt : Packet) (pc : BitVec 64) : List InfoBranch :=
  pkt.insn.flatMap fun i =>
    i.infoBranches pc pkt.encodPktSizeInBytes (hasCj pkt.insn) (hasUcj pkt.insn)

/-- The packet's branches are populated only at its last instruction. -/
def atLastInsn (input : InsnInfo) : Bool :=
  decide ((input.insnNum : Int) = getLastInsn input.pkt) ||
    input.pkt.insn[input.insnNum]?.any Insn.isSubInsn && decide ((input.insnNum : Int) + 1 = getLastInsn input.pkt)

/-- `FillBnInstructionInfo`: an error, or the branches added. -/
def fillBnInstructionInfo (input : InsnInfo) : Option (List InfoBranch) :=
  if input.insnAddr % 4 ≠ 0 then none
  else if atLastInsn input then some (packetBranches input.pkt (BitVec.ofNat 64 input.pc))
  else some []

/-- `parse_bits`. -/
def parseBits (w : BitVec 32) : BitVec 2 := w.extractLsb' 14 2

/-- `is_packet_end`. -/
def isPacketEnd (w : BitVec 32) : Bool := parseBits w == 3 || parseBits w == 0

/-- `decode_parsebits_is_loopend`. -/
def parsebitsIsLoopend (w : BitVec 32) : Bool := parseBits w == 2

namespace Insn

def isExtender (i : Insn) : Bool := i.attrib .itExtender

/-- What decoding a word leaves of an instruction, its operands apart. -/
structure Fresh (ext sub : Bool) (i : Insn) : Prop where
  part1 : i.part1 = false
  extensionValid : i.extensionValid = ext
  endsLoop : i.endsLoop = false
  isSubInsn : i.isSubInsn = sub

/-- The same instruction with other register numbers. -/
structure SameButRegno (i j : Insn) : Prop where
  opcode : i.opcode = j.opcode
  immed : i.immed = j.immed
  part1 : i.part1 = j.part1
  extensionValid : i.extensionValid = j.extensionValid

/-- `insn.immed[n] = v`. -/
def setImmed (i : Insn) (n : Nat) (v : BitVec 32) : Insn :=
  { i with immed := if n = 0 then [v, i.imm 1] else [i.imm 0, v] }

/-- `insn.regno[n] = r`, for a number the operand can have. -/
def setRegno (i : Insn) (n r : Nat) : Option Insn :=
  if h : (i.opcode.regs[n]?).all (fun d => decide (r < d.limit)) = true then
    some { i with
      regno := i.regno.set n r
      regno_lt := by
        intro k d hd
        have hpos : 0 < d.limit := by unfold OperandDecl.limit; split <;> decide
        by_cases hk : n = k
        · subst hk
          rw [hd] at h
          simp only [Option.all_some, decide_eq_true_eq] at h
          rw [List.getD_eq_getElem?_getD, List.getElem?_set_self']
          cases i.regno[n]? with
          | none => exact hpos
          | some _ => exact h
        · rw [List.getD_eq_getElem?_getD, List.getElem?_set_ne hk, ← List.getD_eq_getElem?_getD]
          exact i.regno_lt k d hd }
  else none

/-- `strchr(opcode_reginfo[opcode], letter)`. -/
def regIndex (i : Insn) (l : RegLetter) : Option Nat := i.opcode.regs.findIdx? (·.regid.letter == l)

/-- `strstr(opcode_wregs[opcode], "R" letter)`. -/
def writesReg (i : Insn) (l : RegLetter) : Bool :=
  i.opcode.regs.any fun d => d.regtype == .R && d.regid.letter == l

/-- The operand in which a producer has its result. -/
def newvalueDest (i : Insn) : Option Nat :=
  if i.writesReg .d then i.regIndex .d
  else if i.writesReg .x then i.regIndex .x
  else if i.writesReg .e then i.regIndex .e
  else if i.writesReg .y then i.regIndex .y
  else none

end Insn

/-- What is generated: the decode tree with the operand fields of every opcode, and the text in which
`opcode_which_immediate_is_extended` looks for `IMMEXT(`; and the checks of `mmvec_ext_decode_checks`, which may change
the register a vector store's `.new` operand names. -/
structure DecodeTables where
  /-- The walk from `DECODE_ROOT_32`. -/
  root32 : (ext : Bool) → BitVec 32 → Option Insn
  /-- The walk from `DECODE_ROOT_EE`, and then those of the two halves. -/
  rootEe : (ext : Bool) → BitVec 32 → Option (Option Insn × Option Insn)
  immextLetter : Opcode → ImmLetter
  mmvecCheck : List Insn → Option (List Insn)
  root32_fresh : ∀ ext w, ∀ i ∈ root32 ext w, i.Fresh ext false
  rootEe_fresh : ∀ ext w, ∀ p ∈ rootEe ext w, (∀ i ∈ p.1, i.Fresh ext true) ∧ ∀ i ∈ p.2, i.Fresh false true
  mmvecCheck_same : ∀ l, ∀ l' ∈ mmvecCheck l, List.Forall₂ Insn.SameButRegno l l'

namespace DecodeTables

variable (T : DecodeTables)

/-- `opcode_which_immediate_is_extended`. -/
def whichExtended (o : Opcode) : Option Nat :=
  if o.attrib .extendable then
    some (match T.immextLetter o with
      | .r | .s | .u | .m => 0
      | .R | .S | .U => 1)
  else none

/-- `decode_insns` into place `n`: the places written, and the instructions unless a table or an assertion fails. -/
def decodeInsns (ext : Bool) (n : Nat) (w : BitVec 32) : List Nat × Option (List Insn) :=
  if parseBits w != 0 then
    match T.root32 ext w with
    | none => ([], none)
    | some i => ([n], if ext && !i.attrib .extendable then none else some [i])
  else
    match T.rootEe ext w with
    | none | some (none, none) => ([], none)
    | some (none, some _) => ([n + 1], none)
    | some (some _, none) => ([n], none)
    | some (some b, some a) =>
      if ext && !b.attrib .extendable then ([n], none) else ([n, n + 1], some [b, a])

end DecodeTables

/-- How the loop over the words ends. -/
inductive Stop where
  | failed | insufficient | ended
  deriving Repr, DecidableEq

/-- The locals of the loop over the words. -/
structure Gathered where
  insn : List Insn
  writes : List Nat
  read : Nat
  stop : Stop

/-- `while (!end_of_packet && words_read < max_words)`, from `num_insns` `n` on; `ext` is the mark the word before left
on this place. -/
def gather (T : DecodeTables) : Bool → Nat → List (BitVec 32) → Gathered
  | _, _, [] => ⟨[], [], 0, .insufficient⟩
  | ext, n, w :: ws =>
    match T.decodeInsns ext n w with
    | (writes, none) => ⟨[], writes, 1, .failed⟩
    | (writes, some is) =>
      let mark := is.head?.any (·.opcode.tag == .a4Ext)
      let writes := writes ++ if mark then [n + 1] else []
      if isPacketEnd w then ⟨is, writes, 1, .ended⟩
      else
        let g := gather T mark (n + is.length) ws
        ⟨is ++ g.insn, writes ++ g.writes, g.read + 1, g.stop⟩

/-- The endloop the parse bits of the first words ask for. -/
def endloopInsn (words : List (BitVec 32)) (read : Nat) : Option Insn :=
  let loop0 := words[0]?.any parsebitsIsLoopend
  let loop1 := words[1]?.any parsebitsIsLoopend
  if read = 2 then if loop0 then some (Opcodes.j2Endloop0.insn [] [] (by decide)) else none
  else if 3 ≤ read then
    if loop0 && loop1 then some (Opcodes.j2Endloop01.insn [] [] (by decide))
    else if loop1 then some (Opcodes.j2Endloop1.insn [] [] (by decide))
    else if loop0 then some (Opcodes.j2Endloop0.insn [] [] (by decide))
    else none
  else none

section Checks

variable (T : DecodeTables)

/-- `apply_extender`. -/
def applyExtender (extender : BitVec 32) (i : Insn) : Option Insn := do
  let n ← T.whichExtended i.opcode
  some { i.setImmed n (extender ||| (i.imm n &&& 63)) with extensionValid := true }

/-- `decode_apply_extenders`; past the last instruction there is a place of zeros, which is a `J2_jump`. -/
def applyExtenders : Option (BitVec 32) → List Insn → Option (List Insn)
  | none, [] => some []
  | some _, [] => (T.whichExtended Opcodes.j2Jump).map fun _ => []
  | extender, i :: l => do
    let i ← match extender with
      | none => some i
      | some e => applyExtender T e i
    let l ← applyExtenders (if i.isExtender then some (i.imm 0) else none) l
    some (i :: l)

/-- The places `decode_apply_extenders` writes. -/
def extenderWrites : Nat → List Insn → List Nat
  | _, [] => []
  | n, i :: l => if i.isExtender then (n + 1) :: extenderWrites (n + 1) l else extenderWrites (n + 1) l

/-- The producer `ahead` instructions before place `n`: extenders do not count, a duplex counts as one. -/
def findProducer (l : List Insn) : Nat → Nat → Option Nat
  | n, 0 => some n
  | 0, _ + 1 => none
  | 1, ahead + 1 =>
    match l[0]? with
    | none => none
    | some y =>
      if y.isExtender then none
      else if y.isSubInsn then none
      else findProducer l 0 ahead
  | n + 2, ahead + 1 =>
    match l[n + 1]? with
    | none => none
    | some y =>
      if y.isExtender then findProducer l (n + 1) (ahead + 1)
      else if y.isSubInsn then findProducer l n ahead
      else findProducer l (n + 1) ahead

/-- One turn of `decode_fill_newvalue_regno`. -/
def fillStep (l : List Insn) (n : Nat) : Option (List Insn) :=
  match l[n]? with
  | none => some l
  | some x =>
    if x.attrib .dotnewvalue && !x.attrib .extension then do
      let use ← x.regIndex (if x.attrib .store then .t else .s)
      let ahead := x.reg use / 2
      if ahead = 0 then none
      else
        let k ← findProducer l n ahead
        let y ← l[k]?
        let dst ← y.newvalueDest
        let x ← x.setRegno use (y.reg dst)
        some (l.set n x)
    else some l

/-- `for (i = 1; i < packet->num_insns; i++)`. -/
def fillLoop : Nat → Nat → List Insn → Option (List Insn)
  | _, 0, l => some l
  | i, n + 1, l => (fillStep l i).bind (fillLoop (i + 1) n)

/-- `decode_fill_newvalue_regno`. -/
def fillNewvalueRegno (l : List Insn) : Option (List Insn) := fillLoop 1 (l.length - 1) l

/-- `decode_mmvec_move_cvi_to_end`. -/
def moveCviToEnd (last : Nat) : Nat → Nat → List Insn → List Insn
  | 0, _, l => l
  | n + 1, i, l =>
    if l[i]?.any (·.attrib .cvi) then moveCviToEnd last n i (sendInsnTo l i last)
    else moveCviToEnd last n (i + 1) l

/-- The first half of `decode_shuffle_for_execution_vops`: vector instructions before a `.cur` or `.tmp` load. -/
def shuffleVopsLoad (l : List Insn) : List Insn :=
  match l.findIdx? fun x => x.attrib .load && (x.attrib .cviNew || x.attrib .cviTmp) with
  | some i => moveCviToEnd (shuffled l - 1) i 0 l
  | none => l

/-- The second half: the `.new` vector store. -/
def shuffleVopsStore (l : List Insn) : List Insn :=
  match (l.take (l.length - 1)).findIdx? fun x =>
      x.attrib .store && x.attrib .cviNew && !x.attrib .cviScatterRelease with
  | some i => sendInsnTo l i (shuffled l - 1)
  | none => l

/-- `decode_shuffle_for_execution_vops`. -/
def shuffleVops (l : List Insn) : List Insn := shuffleVopsStore (shuffleVopsLoad l)

/-- The passes over a complete packet. -/
def finishPacket (l : List Insn) : Option (List Insn) := do
  let l ← applyExtenders T none l
  let l ← fillNewvalueRegno l
  if l.any (·.attrib .extension) then
    let l ← T.mmvecCheck l
    some (shuffleVops l)
  else some l

end Checks

/-- What `DecodePacket` returns. -/
inductive DecodeOutcome where
  | failed | insufficient
  | packet (p : Packet)

/-- The passes, and the fields of the packet. -/
def finish (T : DecodeTables) (read : Nat) (l : List Insn) : DecodeOutcome :=
  match finishPacket T l with
  | none => .failed
  | some l => .packet ⟨l, hasCof l, 4 * read % 2 ^ 16⟩

structure DecodeRun where
  reads : List Nat
  writes : List Nat
  outcome : DecodeOutcome

/-- `max_words` is an `int`. -/
def maxWords (n : Nat) : Nat := (BitVec.ofNat 32 n).toInt.toNat

/-- `decode_packet`, as `Decoder::DecodePacket` calls it. -/
def decodePacket (T : DecodeTables) (words : List (BitVec 32)) : DecodeRun :=
  let g := gather T false 0 (words.take (maxWords words.length))
  let reads := List.range g.read
  match g.stop with
  | .failed => ⟨reads, g.writes, .failed⟩
  | .insufficient => ⟨reads, g.writes, .insufficient⟩
  | .ended =>
    let loop := endloopInsn words g.read
    let l := g.insn ++ loop.toList
    { reads := reads ++ if g.read = 2 then [0] else if 3 ≤ g.read then [0, 1] else []
      writes := g.writes ++ (loop.toList.map fun _ => g.insn.length) ++ extenderWrites 0 l ++ List.range l.length
      outcome := finish T g.read l }

end Hex
