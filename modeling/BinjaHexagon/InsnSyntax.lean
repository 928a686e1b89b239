import BinjaHexagon.Behaviour
/-!
# InsnSyntax — `insn_grammar`

The parse trees of the instruction strings: a type for each rule, a constructor for each of its alternatives.  `pieces`
is what a tree stands for in the string, in its order, with the placeholders told apart from the rest.
-/
namespace Hex
namespace Grammar

/-- `%ignore WS` -/
def isBlank (c : Char) : Bool := c == ' ' || c == '\t' || c == '\n' || c == '\r' || c == '\x0c'

/-- A string with its blanks removed. -/
def strip (s : List Char) : List Char := s.filter (!isBlank ·)

@[simp] theorem strip_nil : strip [] = [] := rfl

@[simp] theorem strip_append (s t : List Char) : strip (s ++ t) = strip s ++ strip t := List.filter_append s t

/-- The strings of a terminal. -/
abbrev Terminal (p : List Char → Bool) := { w : List Char // p w = true }

def isWord (w : List Char) : Bool := !w.isEmpty && w.all Char.isAlpha
def isInt (w : List Char) : Bool := !w.isEmpty && w.all Char.isDigit
def isDigit (w : List Char) : Bool := w.length == 1 && w.all Char.isDigit

/-- `REG_A`, `REG_B` and `REG_C`. -/
def isRegA (w : List Char) : Bool := w.length == 1 && w.all fun c => "MNORCPQXSGVZA".toList.contains c
def isRegB (w : List Char) : Bool := !w.isEmpty && w.all fun c => "stuvwxyzdefg".toList.contains c
def isRegC (w : List Char) : Bool := w.length == 1 && w.all fun c => "LlHh".toList.contains c

/-- `DECIMAL: INT "." INT? | "." INT` -/
def isDecimal (w : List Char) : Bool :=
  let a := w.takeWhile Char.isDigit
  match w.dropWhile Char.isDigit with
  | '.' :: b => b.all Char.isDigit && !(a.isEmpty && b.isEmpty)
  | _ => false

/-- `NUMBER: FLOAT | INT`, where a `FLOAT` has a point or an exponent. -/
def isNumber (w : List Char) : Bool :=
  let a := w.takeWhile fun c => c != 'e' && c != 'E'
  match w.dropWhile fun c => c != 'e' && c != 'E' with
  | [] => isInt a || isDecimal a
  | _ :: '+' :: b | _ :: '-' :: b => (isInt a || isDecimal a) && isInt b
  | _ :: b => (isInt a || isDecimal a) && isInt b

def isSignedNumber : List Char → Bool
  | '+' :: w | '-' :: w => isNumber w
  | w => isNumber w

/-- `reg: REG_A REG_B ["."] [REG_C] INT ["S"]` -/
structure Reg where
  a : Terminal isRegA
  b : Terminal isRegB
  dot : Bool
  c : Option (Terminal isRegC)
  d : Terminal isInt
  s : Bool
  deriving DecidableEq

/-- `imm: "#" IMMLETT INT [":" INT]` -/
structure Imm where
  immlett : ImmLetter
  bits : Terminal isInt
  shift : Option (Terminal isInt)
  deriving DecidableEq

/-- `const: "#" SIGNED_NUMBER` -/
abbrev Const := Terminal isSignedNumber

/-- What a string is made of: text that is printed as it stands, the placeholders, and the constants and registers that
are written out in it. -/
inductive Piece where
  | word (w : List Char)
  | reg (r : Reg)
  | imm (i : Imm)
  | const (num : Const)
  | named (w : List Char)
  | gp
  deriving DecidableEq

def immText : ImmLetter → List Char
  | .r => "r".toList | .R => "R".toList | .s => "s".toList | .S => "S".toList
  | .u => "u".toList | .U => "U".toList | .m => "m".toList

def Reg.text (r : Reg) : List Char :=
  r.a.1 ++ r.b.1 ++ (if r.dot then ".".toList else []) ++ (r.c.elim [] Subtype.val) ++ r.d.1 ++
    (if r.s then "S".toList else [])

def Imm.text (i : Imm) : List Char :=
  "#".toList ++ immText i.immlett ++ i.bits.1 ++ i.shift.elim [] fun n => ":".toList ++ n.1

/-- The text of a piece in the string. -/
def Piece.source : Piece → List Char
  | .word w | .named w => w
  | .reg r => r.text
  | .imm i => i.text
  | .const num => "#".toList ++ num.1
  | .gp => "gp".toList

abbrev Pieces := List Piece

def lit (w : String) : Pieces := [.word w.toList]

inductive Rator where
  | plus | shl | eq | inc | minus | and | or | xor | not
  deriving DecidableEq

def Rator.text : Rator → String
  | .plus => "+" | .shl => "<<" | .eq => "=" | .inc => "++" | .minus => "-" | .and => "&" | .or => "|" | .xor => "^"
  | .not => "~"

/-- `subfield` and `subreg` have the same texts. -/
inductive Subfield where
  | uh | h | uw | w | ub | b
  deriving DecidableEq

def Subfield.text : Subfield → String
  | .uh => ".uh" | .h => ".h" | .uw => ".uw" | .w => ".w" | .ub => ".ub" | .b => ".b"

inductive CmpSign where
  | eq | ne | ge | le
  deriving DecidableEq

def CmpSign.text : CmpSign → String
  | .eq => "==" | .ne => "!=" | .ge => ">=" | .le => "<="

inductive HiloHint where
  | hi | lo
  deriving DecidableEq

def HiloHint.text : HiloHint → String
  | .hi => ":hi" | .lo => ":lo"

/-- The hints others may stand behind. -/
inductive Hint where
  | shl1 | shl16 | shr1 | shift
  | rnd | crnd
  | sat
  | raw (hilo : Option HiloHint)
  | t | nt
  | carry
  deriving DecidableEq

def Hint.text : Hint → String
  | .shl1 => ":<<1" | .shl16 => ":<<16" | .shr1 => ":>>1" | .shift => ":shift"
  | .rnd => ":rnd" | .crnd => ":crnd"
  | .sat => ":sat"
  | .raw _ => ":raw"
  | .t => ":t" | .nt => ":nt"
  | .carry => ":carry"

/-- The hints that stand last. -/
inductive LastHint where
  | scale | lib | pos | neg | chop | scatterRelease | nomatch
  deriving DecidableEq

def LastHint.text : LastHint → String
  | .scale => ":scale" | .lib => ":lib" | .pos => ":pos" | .neg => ":neg" | .chop => ":chop"
  | .scatterRelease => ":scatter_release" | .nomatch => ":nomatch"

inductive ResHint where
  | one (h : Hint)
  | more (h : Hint) (rest : ResHint)
  | last (h : LastHint)
  deriving DecidableEq

def Hint.pieces (h : Hint) : Pieces :=
  lit h.text ++ match h with
    | .raw (some x) => lit x.text
    | _ => []

def ResHint.pieces : ResHint → Pieces
  | .one h => h.pieces
  | .more h rest => h.pieces ++ rest.pieces
  | .last h => lit h.text

/-- The strings of `insn`. -/
inductive IsInsn : List Char → Prop where
  | word (w : Terminal isWord) : IsInsn w.1
  | dotted (w w' : Terminal isWord) : IsInsn (w.1 ++ ".".toList ++ w'.1)
  | joined (w w' : Terminal isWord) : IsInsn (w.1 ++ "_".toList ++ w'.1)
  | digit (w : Terminal isWord) (d : Terminal isDigit) : IsInsn (w.1 ++ d.1)
  | digits (w : Terminal isWord) (d d' : Terminal isDigit) : IsInsn (w.1 ++ d.1 ++ d'.1)
  | suffix (w : Terminal isWord) (s : String) (hs : s ∈ [":t", ":nt", "128", "256"]) : IsInsn (w.1 ++ s.toList)
  | convert (w w' : Terminal isWord) : IsInsn ("convert_".toList ++ w.1 ++ "2".toList ++ w'.1)
  | sploop (d d' : Terminal isDigit) : IsInsn ("sp".toList ++ d.1 ++ "loop".toList ++ d'.1)
  | lock : IsInsn "k0lock".toList
  | unlock : IsInsn "k0unlock".toList
  | l2 (w : Terminal isWord) : IsInsn ("l2".toList ++ w.1)

/-- `insn`: the part of the string from its first terminal to its last, with the blanks between them. -/
structure InsnName where
  word : List Char
  derived : IsInsn (strip word)

def InsnName.pieces (i : InsnName) : Pieces := [.word i.word]

/-- `sys_reg: "pc" | "sgp" DIGIT ":0"? | "r29" | "r31"` -/
inductive SysReg where
  | pc
  | sgp (d : Terminal isDigit) (pair : Bool)
  | r29 | r31
  deriving DecidableEq

def SysReg.text : SysReg → List Char
  | .pc => "pc".toList
  | .sgp d pair => "sgp".toList ++ d.1 ++ if pair then ":0".toList else []
  | .r29 => "r29".toList
  | .r31 => "r31".toList

/-- `pred_reg: "p" DIGIT` -/
def predText (d : Terminal isDigit) : List Char := "p".toList ++ d.1

/-- `dot_cur: ".cur" | ".tmp"` -/
inductive DotCur where
  | cur | tmp
  deriving DecidableEq

def DotCur.text : DotCur → String
  | .cur => ".cur" | .tmp => ".tmp"

/-- `any_reg`, with `reg_dot`, `reg_brev` and `reg_star`. -/
inductive AnyReg where
  | reg (r : Reg)
  | dotNew (r : Reg)
  | predDotNew (d : Terminal isDigit)
  | dotCur (r : Reg) (x : DotCur)
  | subreg (r : Reg) (x : Subfield)
  | pred (d : Terminal isDigit)
  | gp
  | sys (r : SysReg)
  | brev (r : Reg)
  | star (r : Reg)

def AnyReg.pieces : AnyReg → Pieces
  | .reg r => [.reg r]
  | .dotNew r => [.reg r] ++ lit ".new"
  | .predDotNew d => [.named (predText d)] ++ lit ".new"
  | .dotCur r x => [.reg r] ++ lit x.text
  | .subreg r x => [.reg r] ++ lit x.text
  | .pred d => [.named (predText d)]
  | .gp => [.gp]
  | .sys r => [.named r.text]
  | .brev r => [.reg r] ++ lit ":brev"
  | .star r => [.reg r] ++ lit "*"

/-- `operand: const | imm | any_reg | not_reg | circ_addr`, where a `circ_addr` starts with an `imm` or with `I`. -/
inductive Operand where
  | const (num : Const)
  | imm (i : Imm)
  | anyReg (r : AnyReg)
  | notReg (r : Reg)
  | circImm (i : Imm) (r : Reg)
  | circI (r : Reg)

def Operand.pieces : Operand → Pieces
  | .const num => [.const num]
  | .imm i => [.imm i]
  | .anyReg r => r.pieces
  | .notReg r => lit "!" ++ [.reg r]
  | .circImm i r => [.imm i] ++ lit ":circ(" ++ [.reg r] ++ lit ")"
  | .circI r => lit "I" ++ lit ":circ(" ++ [.reg r] ++ lit ")"

inductive Call where
  | insn (i : InsnName)
  | call1NoParen (i : InsnName) (op : Operand)
  | call1 (i : InsnName) (op : Operand)
  | call2 (i : InsnName) (op1 op2 : Operand)
  | call2Rator (i : InsnName) (op1 : Operand) (r : Rator) (op2 : Operand)
  | call3 (i : InsnName) (op1 op2 op3 : Operand)
  | callRator2 (i : InsnName) (op1 : Operand) (r : Rator) (op2 : Operand)
  | callRator3 (i : InsnName) (op1 : Operand) (r1 : Rator) (op2 : Operand) (r2 : Rator) (op3 : Operand)
  | callNested1 (i : InsnName) (call : Call)
  | callNested2 (i : InsnName) (op : Operand) (call : Call)
  | callNested3 (i : InsnName) (call : Call) (op : Operand)

def Call.pieces : Call → Pieces
  | .insn i => i.pieces
  | .call1NoParen i op => i.pieces ++ op.pieces
  | .call1 i op => i.pieces ++ lit "(" ++ op.pieces ++ lit ")"
  | .call2 i op1 op2 => i.pieces ++ lit "(" ++ op1.pieces ++ lit "," ++ op2.pieces ++ lit ")"
  | .call2Rator i op1 r op2 => i.pieces ++ lit "(" ++ op1.pieces ++ lit "," ++ lit r.text ++ op2.pieces ++ lit ")"
  | .call3 i op1 op2 op3 =>
    i.pieces ++ lit "(" ++ op1.pieces ++ lit "," ++ op2.pieces ++ lit "," ++ op3.pieces ++ lit ")"
  | .callRator2 i op1 r op2 => i.pieces ++ lit "(" ++ op1.pieces ++ lit r.text ++ op2.pieces ++ lit ")"
  | .callRator3 i op1 r1 op2 r2 op3 =>
    i.pieces ++ lit "(" ++ op1.pieces ++ lit r1.text ++ op2.pieces ++ lit r2.text ++ op3.pieces ++ lit ")"
  | .callNested1 i call => i.pieces ++ lit "(" ++ call.pieces ++ lit ")"
  | .callNested2 i op call => i.pieces ++ lit "(" ++ op.pieces ++ lit "," ++ call.pieces ++ lit ")"
  | .callNested3 i call op => i.pieces ++ lit "(" ++ call.pieces ++ lit "," ++ op.pieces ++ lit ")"

inductive Cond where
  | operand (op : Operand)
  | cond2 (op1 : Operand) (cmp : CmpSign) (op2 : Operand)
  | call (c : Call)

def Cond.pieces : Cond → Pieces
  | .operand op => op.pieces
  | .cond2 op1 cmp op2 => op1.pieces ++ lit cmp.text ++ op2.pieces
  | .call c => c.pieces

/-- `[x]` -/
def optPieces {α : Type} (o : Option α) (f : α → Pieces) : Pieces := o.elim [] f

/-- `exp`, with `(operand | exp)` written out as two alternatives; `neg` is the `not_sign`. -/
inductive Exp where
  | callExp (neg : Bool) (call : Call) (hint : Option ResHint)
  | ifExp (neg : Bool) (cond : Cond) (exp : Exp)
  | assignToOp (op1 : Operand) (reg : Option Reg) (r1 r2 : Option Rator) (op2 : Operand)
  | assignToOpExp (op1 : Operand) (reg : Option Reg) (r1 r2 : Option Rator) (exp : Exp)
  | assignComma (op1 : Operand) (r1 r2 : Option Rator) (op2 : Operand) (exp : Exp)
  | assignCommaExp (op1 : Operand) (r1 r2 : Option Rator) (exp2 exp : Exp)
  | assignToExp (exp1 : Exp) (sub1 : Option Subfield) (r1 r2 : Option Rator) (op2 : Operand) (sub2 : Option Subfield)
  | assignToExpExp (exp1 : Exp) (sub1 : Option Subfield) (r1 r2 : Option Rator) (exp2 : Exp) (sub2 : Option Subfield)

def notPieces (neg : Bool) : Pieces := if neg then lit "!" else []
def ratorPieces (r : Option Rator) : Pieces := optPieces r fun r => lit r.text
def subfieldPieces (s : Option Subfield) : Pieces := optPieces s fun s => lit s.text

def Exp.pieces : Exp → Pieces
  | .callExp neg call hint => notPieces neg ++ call.pieces ++ optPieces hint ResHint.pieces
  | .ifExp neg cond exp => lit "if (" ++ notPieces neg ++ cond.pieces ++ lit ")" ++ exp.pieces
  | .assignToOp op1 reg r1 r2 op2 =>
    op1.pieces ++ optPieces reg (fun r => lit "," ++ [.reg r]) ++ ratorPieces r1 ++ lit "=" ++ ratorPieces r2 ++
      op2.pieces
  | .assignToOpExp op1 reg r1 r2 exp =>
    op1.pieces ++ optPieces reg (fun r => lit "," ++ [.reg r]) ++ ratorPieces r1 ++ lit "=" ++ ratorPieces r2 ++
      exp.pieces
  | .assignComma op1 r1 r2 op2 exp =>
    op1.pieces ++ ratorPieces r1 ++ lit "=" ++ ratorPieces r2 ++ op2.pieces ++ lit ";" ++ exp.pieces
  | .assignCommaExp op1 r1 r2 exp2 exp =>
    op1.pieces ++ ratorPieces r1 ++ lit "=" ++ ratorPieces r2 ++ exp2.pieces ++ lit ";" ++ exp.pieces
  | .assignToExp exp1 sub1 r1 r2 op2 sub2 => exp1.pieces ++ subfieldPieces sub1 ++ ratorPieces r1 ++ lit "=" ++
      ratorPieces r2 ++ op2.pieces ++ subfieldPieces sub2
  | .assignToExpExp exp1 sub1 r1 r2 exp2 sub2 => exp1.pieces ++ subfieldPieces sub1 ++ ratorPieces r1 ++ lit "=" ++
      ratorPieces r2 ++ exp2.pieces ++ subfieldPieces sub2

/-- The string a tree stands for. -/
def Exp.yield (e : Exp) : List Char := e.pieces.flatMap Piece.source

end Grammar
end Hex
