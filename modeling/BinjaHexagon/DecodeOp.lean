import BinjaHexagon.Dectree
/-!
# DecodeOp — `print_op_info` and `decode_op`

What `dectree.py` prints of the operands of an encoding, and what the macros of `q6v_decode.c` make of it.  The
registers and immediates are found in the syntax by two regular expressions, their bits in the encoding by their
letters.
-/
namespace Hex

open Patterns (ofBits)

/-- `DECODE_MATCH_INFO`: the mask of the opcode bits, and their values. -/
def Enc.mask (e : Enc) : BitVec 32 := ofBits 32 (e.map isOpcodeBit)
def Enc.matchBits (e : Enc) : BitVec 32 := ofBits 32 (e.map (· == '1'))

/-- A match of `regre`: register type, letters, half, number. -/
structure RegMatch where
  type : Char
  letters : List Char
  half : List Char
  num : List Char
  deriving Repr, DecidableEq

/-- A match of `immre`: letter, width, shift. -/
structure ImmMatch where
  letter : Char
  width : List Char
  shift : List Char
  deriving Repr, DecidableEq

namespace Syntax

/-- `x?`, for a class of characters. -/
def optional (p : Char → Bool) : List Char → List Char × List Char
  | [] => ([], [])
  | x :: l => if p x then ([x], l) else ([], x :: l)

/-- `x+`, for a class of characters. -/
def many (p : Char → Bool) (l : List Char) : Option (List Char × List Char) :=
  if (l.takeWhile p).isEmpty then none else some (l.takeWhile p, l.dropWhile p)

/-- `((?<!DUP)[MNORCPQXSGVZA])([stuvwxyzdefg]+)([.]?[LlHh]?)(\d+S?)`, what stands before in reverse. -/
def regre (before : List Char) : List Char → Option (RegMatch × List Char)
  | [] => none
  | x :: l => do
    if !"MNORCPQXSGVZA".toList.contains x || before.take 3 == "PUD".toList then none
    let (letters, l) ← many "stuvwxyzdefg".toList.contains l
    let (dot, l) := optional (· == '.') l
    let (half, l) := optional "LlHh".toList.contains l
    let (digits, l) ← many Char.isDigit l
    let (s, l) := optional (· == 'S') l
    some (⟨x, letters, dot ++ half, digits ++ s⟩, l)

/-- `[#]([rRsSuUm])(\d+)(?:[:](\d+))?` -/
def immre (_before : List Char) : List Char → Option (ImmMatch × List Char)
  | '#' :: x :: l => do
    if !"rRsSuUm".toList.contains x then none
    let (width, l) ← many Char.isDigit l
    match l with
    | ':' :: l' =>
      match many Char.isDigit l' with
      | some (shift, l') => some (⟨x, width, shift⟩, l')
      | none => some (⟨x, width, []⟩, l)
    | _ => some (⟨x, width, []⟩, l)
  | _ => none

/-- `re.findall`, by matches of at least one character. -/
def findall {α : Type} (m : List Char → List Char → Option (α × List Char)) : Nat → List Char → List Char → List α
  | 0, _, _ => []
  | _, _, [] => []
  | n + 1, before, x :: l =>
    match m before (x :: l) with
    | some (a, rest) => a :: findall m n (((x :: l).take ((x :: l).length - rest.length)).reverse ++ before) rest
    | none => findall m n (x :: before) l

def toNat (digits : List Char) : Nat := digits.foldl (fun n x => 10 * n + (x.toNat - '0'.toNat)) 0

end Syntax

open Syntax (findall)

/-- `ordered_unique(regre.findall(syntax))` -/
def syntaxRegs (syn : List Char) : List RegMatch := (findall Syntax.regre syn.length [] syn).eraseDups

/-- `ordered_unique(immre.findall(syntax))`, the second immediate put first if it comes first. -/
def syntaxImms (syn : List Char) : List ImmMatch :=
  let imms := (findall Syntax.immre syn.length [] syn).eraseDups
  if (imms.head?.any fun m => m.letter.isUpper) then imms.reverse else imms

example : (syntaxRegs "if (Pt4) Rdd32=memd(Rx32++#s4:3)".toList).map (fun r => (r.type, r.letters, r.num)) =
    [('P', ['t'], ['4']), ('R', ['d', 'd'], ['3', '2']), ('R', ['x'], ['3', '2'])] := by decide

example : (syntaxImms "memw(Rs32+#u6:2)=#S6".toList) = [⟨'u', ['6'], ['2']⟩, ⟨'S', ['6'], []⟩] := by decide

/-- `DEF_REGMAP` -/
def decodeRegister (name : List Char) : Option (List Nat) :=
  if name = "R_16".toList then some [0, 1, 2, 3, 4, 5, 6, 7, 16, 17, 18, 19, 20, 21, 22, 23]
  else if name = "R__8".toList then some [0, 2, 4, 6, 16, 18, 20, 22]
  else if name = "R_8".toList then some [0, 1, 2, 3, 4, 5, 6, 7]
  else none

namespace RegMatch

/-- `reg_letter` -/
def letter (r : RegMatch) : Char := r.letters.headD ' '

/-- `reg_num_choices` -/
def numChoices (r : RegMatch) : Nat := Syntax.toNat (r.num.takeWhile Char.isDigit)

/-- `reg_mapping` -/
def mapping (r : RegMatch) : List Char := r.type :: (r.letters.map fun _ => '_') ++ r.num

/-- `reg_type in num_registers and reg_num_choices != num_registers[reg_type]` -/
def isMapped (r : RegMatch) : Bool := (r.type == 'R' || r.type == 'V') && r.numChoices != 32

/-- The register that a code of the operand stands for. -/
def register (r : RegMatch) (code : Nat) : Nat :=
  if r.isMapped then ((decodeRegister r.mapping).getD []).getD code 0 else code

end RegMatch

namespace ImmMatch

def immno (m : ImmMatch) : Nat := if m.letter.isUpper then 1 else 0

/-- `imm_letter` -/
def encLetter (m : ImmMatch) : Char := if m.letter.isLower then 'i' else 'I'

def bits (m : ImmMatch) : Nat := Syntax.toNat m.width
def shamt (m : ImmMatch) : Nat := Syntax.toNat m.shift
def isSigned (m : ImmMatch) : Bool := m.letter.toLower == 's' || m.letter.toLower == 'r'

end ImmMatch

/-- `re.finditer(x+, enc)`: where each run of the letter starts, and its length. -/
def runs (x : Char) : Nat → Enc → List (Nat × Nat)
  | _, [] => []
  | i, y :: e =>
    if y = x then
      match runs x (i + 1) e with
      | (j, n) :: l => if j = i + 1 then (i, n + 1) :: l else (i, 1) :: (j, n) :: l
      | [] => [(i, 1)]
    else runs x (i + 1) e

/-- A macro of `DECODE_OPINFO`. -/
inductive DecodeOp where
  | reg (regno width startbit : Nat)
  | mappedReg (regno : Nat) (name : List Char)
  | implReg (regno val : Nat)
  | imm (immno width startbit valstart : Nat)
  | immSxt (immno width : Nat)
  | immNeg (immno width : Nat)
  | immShift (immno shamt : Nat)
  deriving Repr, DecidableEq

section Generator

variable (enc : Enc)

/-- The operand `regno`; a field that is missing, split or of the wrong width raises. -/
def regOps (regno : Nat) (r : RegMatch) : Option (List DecodeOp) :=
  match runs r.letter 0 enc with
  | [(start, len)] =>
    if 2 ^ len != r.numChoices then none
    else if r.isMapped then
      if (decodeRegister r.mapping).isNone then none else some [.reg regno len start, .mappedReg regno r.mapping]
    else some [.reg regno len start]
  | _ => none

def allRegOps : Nat → List RegMatch → Option (List DecodeOp)
  | _, [] => some []
  | regno, r :: l => do
    let ops ← regOps enc regno r
    let rest ← allRegOps (regno + 1) l
    some (ops ++ rest)

/-- The pieces of an immediate, from the highest on; `remainder` must come to nothing. -/
def immPieces (immno : Nat) : List (Nat × Nat) → Nat → Option (List DecodeOp)
  | [], remainder => if remainder = 0 then some [] else none
  | (start, len) :: l, remainder =>
    if len ≤ remainder then (immPieces immno l (remainder - len)).map (.imm immno len start (remainder - len) :: ·)
      else none

def immOps (m : ImmMatch) : Option (List DecodeOp) := do
  let pieces ← immPieces m.immno (runs m.encLetter 0 enc).reverse m.bits
  some (pieces ++ (if m.isSigned then [.immSxt m.immno m.bits] else []) ++
    (if m.letter.toLower = 'n' then [.immNeg m.immno m.bits] else []) ++
    if m.shamt = 0 then [] else [.immShift m.immno m.shamt])

def allImmOps : List ImmMatch → Option (List DecodeOp)
  | [] => some []
  | m :: l => do
    let ops ← immOps enc m
    let rest ← allImmOps l
    some (ops ++ rest)

/-- `implicit_registers`, those a tag reads or writes, by their number. -/
def implicitRegisters (rregs wregs : List String) : List Nat :=
  ([("SP", 29), ("FP", 30), ("LR", 31)].filter fun p => rregs.contains p.1 || wregs.contains p.1).map Prod.snd

/-- `DECODE_OPINFO`, unless the generator raises. -/
def opInfo (syn : List Char) (rregs wregs : List String) : Option (List DecodeOp) := do
  let regs ← allRegOps enc 0 (syntaxRegs syn)
  let imms ← allImmOps enc (syntaxImms syn)
  some (regs ++ (implicitRegisters rregs wregs).zipIdx.map (fun p => .implReg ((syntaxRegs syn).length + p.2) p.1) ++
    imms)

end Generator

/-- `insn->regno` and `insn->immed`. -/
structure OpFields where
  regno : Nat → Nat
  immed : Nat → BitVec 32

namespace DecodeOp

/-- The macro, as `q6v_decode.c` defines it; `extended` is the immediate that an extender stands for. -/
def exec (extended : Option Nat) (encoding : BitVec 32) (o : OpFields) : DecodeOp → OpFields
  | reg k width startbit =>
    { o with regno := Function.update o.regno k ((encoding >>> startbit) &&& ((1#32 <<< width) - 1)).toNat }
  | mappedReg k name =>
    { o with regno := Function.update o.regno k (((decodeRegister name).getD []).getD (o.regno k) 0) }
  | implReg k val => { o with regno := Function.update o.regno k val }
  | imm k width startbit valstart =>
    let piece := ((encoding >>> startbit) &&& ((1#32 <<< width) - 1)) <<< valstart
    { o with immed := Function.update o.immed k (o.immed k ||| piece) }
  | immSxt k width =>
    { o with immed := Function.update o.immed k ((o.immed k <<< (32 - width)).sshiftRight (32 - width)) }
  | immNeg k _ => { o with immed := Function.update o.immed k (-o.immed k) }
  | immShift k shamt =>
    if extended = some k then o else { o with immed := Function.update o.immed k (o.immed k <<< shamt) }

def execAll (extended : Option Nat) (encoding : BitVec 32) (ops : List DecodeOp) (o : OpFields) : OpFields :=
  ops.foldl (exec extended encoding) o

end DecodeOp

end Hex
