import BinjaHexagon.BranchTarget
import BinjaHexagon.InsnSyntax
/-!
# InsnText — `InsnTreeTransformer`

From a parse tree to the tokens of a text function, and what these print for an instruction.  A failed `assert`, a
register that is not in the table and a `LOG(FATAL)` are `none`.
-/
namespace Hex

open Grammar (Terminal isInt strip)

/-- `absl::Hex`, and a number in `absl::StrCat`. -/
def hexText (n : Nat) : List Char := Nat.toDigits 16 n
def decText (n : Nat) : List Char := Nat.toDigits 10 n

section RegisterNames

def generalRegisterName (reg : Nat) : Option (List Char) :=
  if reg ≤ 28 then some ("R".toList ++ decText reg)
  else if reg = hexRegSp then some "SP".toList
  else if reg = hexRegFp then some "FP".toList
  else if reg = hexRegLr then some "LR".toList
  else none

def controlNames : List String :=
  ["SA0", "LC0", "SA1", "LC1", "P3:0", "C5", "M0", "M1", "USR", "PC", "UGP", "GP", "CS0", "CS1"]

def controlRegisterName (regno : Nat) : Option (List Char) :=
  match controlNames[regno]? with
  | some name => some name.toList
  | none => if regno ≤ 31 then some ("C".toList ++ decText regno) else none

def predicateRegisterName (regno : Nat) : Option (List Char) :=
  if regno ≤ 3 then some ("P".toList ++ decText regno) else none

/-- `SGP0`, `EVB` and `IPENDAD` on. -/
def systemNames0 : List String :=
  ["SGP0", "SGP1", "STID", "ELR", "BADVA0", "BADVA1", "SSR", "CCR", "HTID", "BADVA", "IMASK", "GEVB"]

def systemNames16 : List String := ["EVB", "MODECTL", "SYSCFG"]

def systemNames20 : List String :=
  ["IPENDAD", "VID", "VID1", "BESTWAIT", "IEL", "SCHEDCFG", "IAHL", "CFGBASE", "DIAG", "REV", "PCYCLELO", "PCYCLEHI",
    "ISDBST", "ISDBCFG0", "ISDBCFG1", "LIVELOCK", "BRKPTPC0", "BRKPTCFG0", "BRKPTPC1", "BRKPTCFG1", "ISDBMBXIN",
    "ISDBMBXOUT", "ISDBEN", "ISDBGPR", "PMUCNT4", "PMUCNT5", "PMUCNT6", "PMUCNT7", "PMUCNT0", "PMUCNT1", "PMUCNT2",
    "PMUCNT3", "PMUEVTCFG", "PMUSTID0", "PMUEVTCFG1", "PMUSTID1", "TIMERLO", "TIMERHI", "PMUCFG", "S59", "S60", "S61",
    "S62", "S63", "COMMIT1T", "COMMIT2T", "COMMIT3T", "COMMIT4T", "COMMIT5T", "COMMIT6T", "PCYCLE1T", "PCYCLE2T",
    "PCYCLE3T", "PCYCLE4T", "PCYCLE5T", "PCYCLE6T", "STFINST", "ISDBCMD", "ISDBVER", "BRKPTINFO", "RGDR3", "COMMIT7T",
    "COMMIT8T", "PCYCLE7T", "PCYCLE8T", "S85"]

def systemRegisterName (regno : Nat) : Option (List Char) :=
  (if regno < 16 then systemNames0[regno]? else if regno < 20 then systemNames16[regno - 16]?
    else systemNames20[regno - 20]?).map String.toList

/-- `GetRegisterName` -/
def getRegisterName (regType hiLowModifier : List Char) (regno : Nat) : Option (List Char) := do
  let out ←
    if regType = "R".toList ∨ regType = "N".toList then generalRegisterName regno
    else if regType = "C".toList then controlRegisterName regno
    else if regType = "P".toList then predicateRegisterName regno
    else if regType = "S".toList then systemRegisterName regno
    else some (regType ++ decText regno)
  some (if hiLowModifier = [] then out else out ++ ".".toList ++ hiLowModifier)

end RegisterNames

section Literals

def digitsValue (base : Nat) (ds : List Char) : Nat := ds.foldl (fun n d => base * n + (d.toNat - '0'.toNat)) 0

/-- An integer literal of C++, octal behind a zero: the bits of its type and its value. -/
def cppLiteral (ds : List Char) : Option (Nat × Nat) :=
  if !isInt ds then none
  else match ds with
    | '0' :: d :: ds =>
      let n := digitsValue 8 (d :: ds)
      if (d :: ds).any fun d => decide ('7' < d) then none
      else if n < 2 ^ 32 then some (32, n)
      else if n < 2 ^ 64 then some (64, n)
      else none
    | ds =>
      let n := digitsValue 10 ds
      if n < 2 ^ 31 then some (32, n)
      else if n < 2 ^ 63 then some (64, n)
      else none

/-- `StrCat("0x", Hex(num))` of an integer literal.  A number with a fraction or an exponent, which `Hex` takes as a
`double` and truncates, is in no syntax string and has no text here. -/
def constText : List Char → Option (List Char)
  | '-' :: ds => (cppLiteral ds).map fun l => "0x".toList ++ hexText ((2 ^ l.1 - l.2) % 2 ^ l.1)
  | '+' :: ds => (cppLiteral ds).map fun l => "0x".toList ++ hexText l.2
  | ds => (cppLiteral ds).map fun l => "0x".toList ++ hexText l.2

end Literals

/-- The tokens of the generated function; `sharps` is the `TextToken` of `insn.extension_valid ? "##" : "#"`, and `next`
the `+1` of the upper half of a pair. -/
inductive TextTok where
  | text (w : List Char)
  | sharps
  | instruction (w : List Char)
  | register (w : List Char)
  | registerName (regType hiLow : List Char) (slot : Nat) (next : Bool)
  | gpRegister (w : List Char)
  | codeRelativeAddress (ii : Nat)
  | integer (ii : Nat)
  | constant (num : List Char)
  deriving DecidableEq

/-- `wrap_call`: what the function prints for the token. -/
def TextTok.shown (pc : BitVec 64) (i : Insn) : TextTok → Option (List Char)
  | .text w | .instruction w | .register w => some w
  | .sharps => some (if i.extensionValid then "##".toList else "#".toList)
  | .registerName a c slot next => getRegisterName a c (i.reg slot + if next then 1 else 0)
  | .gpRegister w => some (if i.extensionValid then "0".toList else w)
  | .codeRelativeAddress ii => some ("0x".toList ++ hexText (pc + (i.imm ii).signExtend 64).toNat)
  | .integer ii => some ("0x".toList ++ hexText (i.imm ii).toNat)
  | .constant num => constText num

/-- The concatenated texts. -/
def showToks (pc : BitVec 64) (i : Insn) : List TextTok → Option (List Char)
  | [] => some []
  | t :: ts => do
    let a ← t.shown pc i
    let b ← showToks pc i ts
    some (a ++ b)

/-- What the transformer is made for: the row with its immediates, the letter of the first `IMMEXT(` of its behaviour,
and the types and letters of its register operands. -/
structure TextTable where
  row : TextRow
  immext : Option Char
  regs : List (List Char × List Char)

/-- `seen_cmpjump_imm` and `seen_loop_imm`. -/
structure Seen where
  cmpjump : Bool
  loop : Bool
  deriving DecidableEq

/-- A callback of the transformer: its tokens, and the flags behind it. -/
def Emit := Seen → Option (List TextTok × Seen)

instance : Append Emit where
  append m n := fun s => do
    let x ← m s
    let y ← n x.2
    some (x.1 ++ y.1, y.2)

def emit (l : List TextTok) : Emit := fun s => some (l, s)

def textTok (w : String) : Emit := emit [.text w.toList]

/-- `x if x else []` -/
def optEmit {α : Type} (o : Option α) (f : α → Emit) : Emit := o.elim (emit []) f

/-- `word.upper()`, and the names of `r29` and `r31`. -/
def upper (w : List Char) : List Char := w.map Char.toUpper

def sysRegName (text : List Char) : List Char :=
  let word := upper text
  if word = "R29".toList then "SP".toList else if word = "R31".toList then "LR".toList else word

/-- `immlett.isupper()` -/
def ImmLetter.isUpper (l : ImmLetter) : Bool := TextRow.immIndex l == 1

namespace TextTable

variable (T : TextTable)

/-- `self.seenregs` -/
def seenregs : List Char → Option Nat :=
  T.regs.zipIdx.foldl (fun f r => Function.update f r.1.2 (some r.2)) fun _ => none

/-- `extendable_upper_imm` or `extendable_lower_imm`, for the letter's case. -/
def extendable (l : ImmLetter) : Bool := T.immext.any fun c => c.isUpper == ImmLetter.isUpper l

def reg (r : Grammar.Reg) : Emit := fun s =>
  let c := r.c.elim [] Subtype.val
  match T.seenregs r.b.1 with
  | none => none
  | some regno =>
    if r.b.1.length = 1 then some ([.registerName r.a.1 c regno false], s)
    else if r.b.1.length = 2 ∧ c = [] then
      some ([.registerName r.a.1 c regno true, .text ":".toList, .registerName r.a.1 c regno false], s)
    else none

/-- The tokens of an immediate that is an address, or a number. -/
def immToks (l : ImmLetter) : ImmToken → List TextTok
  | .address ii => [.codeRelativeAddress ii]
  | .integer ii => [if T.extendable l then .sharps else .text "#".toList, .integer ii]

/-- The flags are set by an immediate of a branch that has several, and of a loop set-up. -/
def imm (i : Grammar.Imm) : Emit := fun s =>
  let branches := T.row.row.attrib .jump || T.row.row.attrib .call
  let several := branches && decide (1 < T.row.imms.length)
  (T.row.immTokens s.cmpjump s.loop [i.immlett]).map fun ts =>
    (ts.flatMap (T.immToks i.immlett), ⟨s.cmpjump || several, s.loop || T.row.isWriteToLoopStart⟩)

def const (num : Grammar.Const) : Emit := emit [.text "#".toList, .constant num.1]

def regTerminal (w : String) : Emit := emit [.register w.toList]

def predReg (d : Terminal Grammar.isDigit) : Emit := emit [.register ("P".toList ++ d.1)]

def anyReg : Grammar.AnyReg → Emit
  | .reg r => T.reg r
  | .dotNew r => T.reg r ++ regTerminal ".new"
  | .predDotNew d => predReg d ++ regTerminal ".new"
  | .dotCur r x => T.reg r ++ regTerminal x.text
  | .subreg r x => T.reg r ++ regTerminal x.text
  | .pred d => predReg d
  | .gp => emit [.gpRegister (upper "gp".toList)]
  | .sys r => emit [.register (sysRegName r.text)]
  | .brev r => T.reg r ++ textTok ":brev"
  | .star r => T.reg r ++ textTok "*"

def operand : Grammar.Operand → Emit
  | .const num => const num
  | .imm i => T.imm i
  | .anyReg r => T.anyReg r
  | .notReg r => textTok "!" ++ T.reg r
  | .circImm i r => T.imm i ++ textTok ":circ(" ++ T.reg r ++ textTok ")"
  | .circI r => textTok "I" ++ textTok ":circ(" ++ T.reg r ++ textTok ")"

def insn (i : Grammar.InsnName) : Emit := emit [.instruction i.word]

def hint (h : Grammar.Hint) : Emit :=
  textTok h.text ++ match h with
    | .raw (some x) => textTok x.text
    | _ => emit []

def resHint : Grammar.ResHint → Emit
  | .one h => hint h ++ emit []
  | .more h rest => hint h ++ resHint rest
  | .last h => textTok h.text

def call : Grammar.Call → Emit
  | .insn i => insn i
  | .call1NoParen i op => insn i ++ textTok " " ++ T.operand op
  | .call1 i op => insn i ++ textTok "(" ++ T.operand op ++ textTok ")"
  | .call2 i op1 op2 => insn i ++ textTok "(" ++ T.operand op1 ++ textTok "," ++ T.operand op2 ++ textTok ")"
  | .call2Rator i op1 r op2 =>
    insn i ++ textTok "(" ++ T.operand op1 ++ textTok "," ++ textTok r.text ++ T.operand op2 ++ textTok ")"
  | .call3 i op1 op2 op3 => insn i ++ textTok "(" ++ T.operand op1 ++ textTok "," ++ T.operand op2 ++ textTok "," ++
      T.operand op3 ++ textTok ")"
  | .callRator2 i op1 r op2 => insn i ++ textTok "(" ++ T.operand op1 ++ textTok r.text ++ T.operand op2 ++ textTok ")"
  | .callRator3 i op1 r1 op2 r2 op3 => insn i ++ textTok "(" ++ T.operand op1 ++ textTok r1.text ++ T.operand op2 ++
      textTok r2.text ++ T.operand op3 ++ textTok ")"
  | .callNested1 i k => insn i ++ textTok "(" ++ call k ++ textTok ")"
  | .callNested2 i op k => insn i ++ textTok "(" ++ T.operand op ++ textTok "," ++ call k ++ textTok ")"
  | .callNested3 i k op => insn i ++ textTok "(" ++ call k ++ textTok "," ++ T.operand op ++ textTok ")"

def cond : Grammar.Cond → Emit
  | .operand op => T.operand op
  | .cond2 op1 cmp op2 => T.operand op1 ++ textTok cmp.text ++ T.operand op2
  | .call k => T.call k

def notSign (neg : Bool) : Emit := if neg then textTok "!" else emit []

def optRator (r : Option Grammar.Rator) : Emit := optEmit r fun r => textTok r.text

def optSubfield (x : Option Grammar.Subfield) : Emit := optEmit x fun x => textTok x.text

def optReg (r : Option Grammar.Reg) : Emit := optEmit r fun r => textTok "," ++ T.reg r

def exp : Grammar.Exp → Emit
  | .callExp neg k h => notSign neg ++ T.call k ++ optEmit h resHint
  | .ifExp neg c e => textTok "if (" ++ notSign neg ++ T.cond c ++ textTok ") " ++ exp e
  | .assignToOp op1 r r1 r2 op2 =>
    T.operand op1 ++ T.optReg r ++ optRator r1 ++ textTok " = " ++ optRator r2 ++ T.operand op2
  | .assignToOpExp op1 r r1 r2 e => T.operand op1 ++ T.optReg r ++ optRator r1 ++ textTok " = " ++ optRator r2 ++ exp e
  | .assignComma op1 r1 r2 op2 e =>
    T.operand op1 ++ optRator r1 ++ textTok " = " ++ optRator r2 ++ T.operand op2 ++ textTok ";" ++ exp e
  | .assignCommaExp op1 r1 r2 e2 e =>
    T.operand op1 ++ optRator r1 ++ textTok " = " ++ optRator r2 ++ exp e2 ++ textTok ";" ++ exp e
  | .assignToExp e1 x1 r1 r2 op2 x2 =>
    exp e1 ++ optSubfield x1 ++ optRator r1 ++ textTok " = " ++ optRator r2 ++ T.operand op2 ++ optSubfield x2
  | .assignToExpExp e1 x1 r1 r2 e2 x2 =>
    exp e1 ++ optSubfield x1 ++ optRator r1 ++ textTok " = " ++ optRator r2 ++ exp e2 ++ optSubfield x2

/-- `process_insn_tokens` on the tree of the string. -/
def processInsnTokens (e : Grammar.Exp) : Option (List TextTok) := (T.exp e ⟨false, false⟩).map Prod.fst

end TextTable
end Hex
