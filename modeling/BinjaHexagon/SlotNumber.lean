import BinjaHexagon.DecodeSafe
import BinjaHexagon.Descent
/-!
# SlotNumber — `decode_set_slot_number`

`1 << slot` of a negative `slot` has no meaning in C: a search that comes to one finds nothing here.
-/
namespace Hex

/-- The attributes the slot assignment asks for and nothing else does. -/
inductive SlotAttrib where
  | icop | restrictSlot0only | restrictSlot1only | restrictSlot2only | restrictSlot3only | restrictNoslot1
  | restrictPreferslot0 | cof | memlike | memlikePacketRules | crslot23
  | cviVm | cviSlot23 | cviVx | cviVxDv | cviVsVx
  deriving Repr, DecidableEq

/-- The rest of the rows of `opcode_attribs`, and three more opcodes that `find_iclass_slots` names. -/
structure SlotTables where
  attribs : Tag → List SlotAttrib
  y2Isync : Tag
  j4Jumpseti : Tag
  j4Jumpsetr : Tag

/-- `SlotMask`, the bit of a slot set where the slot is permitted. -/
abbrev SlotMask := BitVec 4

def slots0 : SlotMask := 1
def slots1 : SlotMask := 2
def slots2 : SlotMask := 4
def slots3 : SlotMask := 8
def slots01 : SlotMask := slots0 ||| slots1
def slots23 : SlotMask := slots2 ||| slots3
def slots0123 : SlotMask := slots01 ||| slots23

/-- `iclass_bits`. -/
def iclassBits (w : BitVec 32) : Nat := (w.extractLsb' 28 4).toNat + if parseBits w = 0 then 16 else 0

/-- `ICLASS_V2LDST`. -/
def iclassV2ldst : Nat := 4

/-- `iclass_info`; the classes of a duplex are 16 and up. -/
def iclassInfo : Nat → SlotMask
  | 0 | 1 | 5 | 7 | 11 | 15 => slots0123
  | 2 | 3 | 4 | 9 | 10 => slots01
  | 6 => slots3
  | 8 | 12 | 13 | 14 => slots23
  | _ => slots01

/-- An instruction with its `iclass`. -/
structure SlotInsn where
  insn : Insn
  iclass : Nat

section Slots

variable (S : SlotTables)

namespace SlotInsn

/-- `GET_ATTRIB`, for these attributes. -/
def has (x : SlotInsn) (a : SlotAttrib) : Bool := (S.attribs x.insn.opcode.tag).contains a

/-- `A_MEMLIKE` or `A_MEMLIKE_PACKET_RULES`. -/
def isMem (x : SlotInsn) : Bool := x.has S .memlike || x.has S .memlikePacketRules

def isEndloop (x : SlotInsn) : Bool :=
  x.insn.opcode.tag == .j2Endloop01 || x.insn.opcode.tag == .j2Endloop0 || x.insn.opcode.tag == .j2Endloop1

/-- `find_iclass_slots`. -/
def findIclassSlots (x : SlotInsn) : SlotMask :=
  if x.has S .icop then slots2
  else if x.has S .restrictSlot0only then slots0
  else if x.has S .restrictSlot1only then slots1
  else if x.has S .restrictSlot2only then slots2
  else if x.has S .restrictSlot3only then slots3
  else if x.has S .cof && x.insn.attrib .indirect && !x.has S .memlike && !x.has S .memlikePacketRules then slots2
  else if x.has S .restrictNoslot1 then slots0
  else if [.j2Trap0, .j2Trap1, S.y2Isync, .j2Rte, .j2Pause, .j4Hintjumpr].contains x.insn.opcode.tag then slots2
  else if x.iclass == iclassV2ldst && x.insn.attrib .store then slots01
  else if x.iclass == iclassV2ldst && !x.insn.attrib .store then slots01
  else if x.has S .crslot23 then slots23
  else if x.has S .restrictPreferslot0 then slots0
  else if x.insn.attrib .subinsn then slots01
  else if x.insn.attrib .call then slots23
  else if [S.j4Jumpseti, S.j4Jumpsetr].contains x.insn.opcode.tag then slots23
  else if x.insn.attrib .extension && x.insn.attrib .cvi then
    if x.has S .cviVm then slots01
    else if x.has S .restrictSlot2only then slots2
    else if x.has S .cviSlot23 then slots23
    else if x.has S .cviVx then slots23
    else if x.has S .cviVxDv then slots23
    else if x.has S .cviVsVx then slots23
    else if x.has S .memlike then slots01
    else slots0123
  else iclassInfo x.iclass

/-- `mmvec_ext_decode_find_iclass_slots`. -/
def mmvecFindIclassSlots (x : SlotInsn) : SlotMask :=
  if x.has S .cviVm then
    if x.has S .restrictSlot0only then slots0
    else if x.has S .restrictSlot1only then slots1
    else slots01
  else if x.has S .restrictSlot2only then slots2
  else if x.has S .cviVx then slots23
  else if x.has S .cviVsVx then slots23
  else slots0123

/-- `get_valid_slots`. -/
def validSlots (x : SlotInsn) : SlotMask :=
  if x.insn.attrib .extension then x.mmvecFindIclassSlots S else x.findIclassSlots S

/-- `valid_slots & (1 << slot)`. -/
def permits (x : SlotInsn) (slot : Nat) : Bool := (x.validSlots S).getLsbD slot

theorem lt_of_permits {x : SlotInsn} {n : Nat} (h : x.permits S n = true) : n < 4 :=
  BitVec.lt_of_getLsbD h

end SlotInsn

/-- The first loop, from slot 3 down. -/
def assignSlots (l : List SlotInsn) : Option (List Nat) := Descent.assign (l.map fun x => x.permits S) 3

/-- A fix-up: from the end, the first instruction that `p` takes goes to slot 0, the others to slot 1. -/
def fixSlots (p : SlotInsn → Bool) : List (SlotInsn × Nat) → Bool × List (SlotInsn × Nat)
  | [] => (false, [])
  | (x, slot) :: l =>
    let r := fixSlots p l
    if p x then (true, (x, if r.1 then 1 else 0) :: r.2) else (r.1, (x, slot) :: r.2)

/-- "Slot 1 is never empty": the first instruction in slot 1 goes to slot 0 when only an endloop is there. -/
def alignSlots (l : List (SlotInsn × Nat)) : List (SlotInsn × Nat) :=
  if l.any fun q => q.2 == 0 && !q.1.isEndloop then l
  else match l.findIdx? (·.2 == 1) with
    | some i => l.modify i fun q => (q.1, 0)
    | none => l

/-- `decode_set_slot_number`. -/
def decodeSetSlotNumber (l : List SlotInsn) : Option (List (SlotInsn × Nat)) :=
  (assignSlots S l).map fun slots =>
    alignSlots (fixSlots (·.insn.isSubInsn) (fixSlots (·.isMem S) (l.zip slots)).2).2

end Slots
end Hex
