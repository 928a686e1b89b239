import BinjaHexagon.Insn
/-!
# Decode — the packet passes of `decode.c` that lifting runs

`PreparePacketForLifting`: the constant extenders go, `decode_shuffle_for_execution` moves stores back and compares
forward until nothing changes, and `decode_split_cmpjump` takes the compare out of every compound jump.
-/
namespace Hex

/-- `decode_send_insn_to`: what its exchanges of neighbours amount to. -/
def sendInsnTo {α : Type} (l : List α) (start newloc : Nat) : List α :=
  match l[start]? with
  | some a => (l.eraseIdx start).insertIdx newloc a
  | none => l

namespace Insn

/-- `decode_opcode_can_jump`. -/
def canJump (i : Insn) : Bool :=
  (i.attrib .jump || i.attrib .call || i.opcode.tag == .j2Trap0 || i.opcode.tag == .j2Trap1 ||
    i.opcode.tag == .j2Rte || i.opcode.tag == .j2Pause) && i.opcode.tag != .j4Hintjumpr

/-- `decode_opcode_ends_loop`. -/
def endsLoop (i : Insn) : Bool := i.opcode.endsLoop

/-- The instructions the second pass of the shuffle sends to the front. -/
def isCompare (i : Insn) : Bool := i.opcode.isCompare

end Insn

/-- The part of `decode_set_insn_attr_fields` that lifting reads: `pkt_has_cof`. -/
def hasCof (l : List Insn) : Bool := l.any fun i => !i.part1 && (i.canJump || i.endsLoop)

/-- The instructions of a packet as `decode_packet` leaves them for the plugin: nothing is split yet, and only the last
one can be the endloop that the parse bits ask for. -/
structure Decoded where
  insn : List Insn
  part1 : ∀ i ∈ insn, i.part1 = false
  endloop : ∀ i ∈ insn.dropLast, i.endsLoop = false

/-- `decode_remove_extenders`: the instruction that takes an extender's place is passed over. -/
def removeExtenders : List Insn → List Insn
  | [] => []
  | [i] => if i.attrib .itExtender then [] else [i]
  | i :: j :: l => if i.attrib .itExtender then j :: removeExtenders l else i :: removeExtenders (j :: l)

/-- The locals of the store pass. -/
structure StorePass where
  insn : List Insn
  flag : Bool
  nMems : Nat
  changed : Bool

/-- One turn of the store pass, `n` instructions being shuffled. -/
def storeStep (n i : Nat) (st : StorePass) : StorePass :=
  match st.insn[i]? with
  | none => st
  | some x =>
    if st.flag && x.attrib .store then
      ⟨sendInsnTo st.insn i (n - 1 - st.nMems), st.flag, st.nMems + 1, true⟩
    else if x.attrib .store then { st with nMems := st.nMems + 1 }
    else if x.attrib .load then { st with nMems := st.nMems + 1 }
    else if x.attrib .dotnewvalue then st
    else { st with flag := true }

/-- `for (i = last_insn; i >= 0; i--)`. -/
def storeLoop (n : Nat) : Nat → StorePass → StorePass
  | 0, st => st
  | i + 1, st => storeLoop n i (storeStep n i st)

def storePass (n : Nat) (l : List Insn) : StorePass := storeLoop n n ⟨l, false, 0, false⟩

/-- The locals of the compare pass. -/
structure ComparePass where
  insn : List Insn
  flag : Bool
  changed : Bool

def compareStep (i : Nat) (st : ComparePass) : ComparePass :=
  match st.insn[i]? with
  | none => st
  | some x =>
    if x.isCompare then
      if st.flag then ⟨sendInsnTo st.insn i 0, st.flag, true⟩ else st
    else { st with flag := true }

/-- `for (i = 0; i < last_insn + 1; i++)`. -/
def compareLoop : Nat → Nat → ComparePass → ComparePass
  | _, 0, st => st
  | i, n + 1, st => compareLoop (i + 1) n (compareStep i st)

def comparePass (n : Nat) (l : List Insn) : ComparePass := compareLoop 0 n ⟨l, false, false⟩

/-- `do … while (changed)`, for at most `fuel` rounds. -/
def shuffleLoop (n : Nat) : Nat → List Insn → Option (List Insn)
  | 0, _ => none
  | fuel + 1, l =>
    let s := storePass n l
    if s.changed then shuffleLoop n fuel s.insn
    else
      let c := comparePass n s.insn
      if c.changed then shuffleLoop n fuel c.insn else some c.insn

/-- `for (i = 0; i < last_insn; i++)` with a `break` at the first that `p` holds of. -/
def sendFirstToEnd (p : Insn → Bool) (n : Nat) (l : List Insn) : List Insn :=
  match (l.take (n - 1)).findIdx? p with
  | some i => sendInsnTo l i (n - 1)
  | none => l

/-- How many instructions are shuffled: an endloop stays last. -/
def shuffled (l : List Insn) : Nat :=
  match l.getLast? with
  | some i => if i.endsLoop then l.length - 1 else l.length
  | none => 0

/-- `decode_shuffle_for_execution`. -/
def shuffleForExecution (fuel : Nat) (l : List Insn) : Option (List Insn) := do
  let n := shuffled l
  let l ← shuffleLoop n fuel l
  some (sendFirstToEnd (·.opcode.tag == .j2Rte) n (sendFirstToEnd (·.attrib .dotnewvalue) n l))

/-- The second loop of `decode_split_cmpjump`. -/
def part1ToFront : Nat → Nat → List Insn → List Insn
  | _, 0, l => l
  | i, n + 1, l =>
    part1ToFront (i + 1) n (if (l[i]?.map Insn.part1).getD false then sendInsnTo l i 0 else l)

/-- `decode_split_cmpjump`; there is no room for an eighth instruction. -/
def splitCmpjump (l : List Insn) : Option (List Insn) :=
  let jumps := l.map fun i => if i.attrib .newcmpjump then { i with part1 := false } else i
  let compares := (l.filter fun i => i.attrib .newcmpjump).map fun i => { i with part1 := true }
  let l' := jumps ++ compares
  if l'.length ≤ instructionsMax then some (part1ToFront 0 l'.length l') else none

/-- Rounds enough for every packet. -/
def shuffleFuel : Nat := 2 * instructionsMax * instructionsMax + 1

/-- `PreparePacketForLifting`. -/
def preparePacketForLifting (l : List Insn) : Option (List Insn) := do
  let l ← shuffleForExecution shuffleFuel (removeExtenders l)
  splitCmpjump l

end Hex
