import BinjaHexagon.Machine
/-!
# Behaviour — the behaviour language `semantics_grammar` accepts

The trees `semantics_parser` hands to the transformer: identifiers, expressions and statements, with one constructor for
each lifted macro.  The literal arguments a macro insists on (`args[0].type == 'INTCON'`, `ea.type == 'EA'`) are part of
its constructor.
-/
namespace Hex

/-- `REG_TYPE`, the types an operand of a lifted instruction has. -/
inductive RegType where
  | C | N | P | R
  deriving Repr, DecidableEq

/-- A letter of `REG_ID`. -/
inductive RegLetter where
  | d | e | s | t | u | v | w | x | y
  deriving Repr, DecidableEq

/-- `REG_ID`: `d`, or the pair `dd`. -/
structure RegId where
  letter : RegLetter
  pair : Bool
  deriving Repr, DecidableEq

/-- `IMMLETT`; the upper case letter is the second immediate. -/
inductive ImmLetter where
  | r | R | s | S | u | U | m
  deriving Repr, DecidableEq

/-- `TMP`. -/
inductive TmpName where
  | tmp | width | offset | shamt
  deriving Repr, DecidableEq

/-- A token that `lift_operand` takes: `REG_OLD`, `REG_NEW`, `REG_LR`, `IMM`, `EA`, `INTCON`, `TMP`. -/
inductive Operand where
  | regOld (t : RegType) (id : RegId)
  | regNew (t : RegType) (id : RegId)
  | regLr
  | imm (l : ImmLetter)
  | ea
  | intcon (n : Nat)
  | tmp (n : TmpName)
  deriving Repr, DecidableEq

inductive Binop where
  | add | sub | mul | div | or | and | xor | shl | shr
  deriving Repr, DecidableEq

inductive Relop where
  | eq | ne | le | lt | ge | gt
  deriving Repr, DecidableEq

inductive Assgop where
  | add | sub | and | xor | or
  deriving Repr, DecidableEq

/-- `BRANCH_TYPE`, without its `COF_TYPE_`. -/
inductive BranchType where
  | jump | jumpnew | jumpr | call | callr | ret | loopend0 | loopend1
  deriving Repr, DecidableEq

/-- Macros without an argument to transform. -/
inductive Macro0 where
  | fFrameScramble | fReadPc | fReadLr | fReadFp | fReadSp | fReadGp | fReadP0 | fReadLpcfg
  | fReadLc (n : Nat)
  | fReadSa (n : Nat)
  deriving Repr, DecidableEq

/-- Macros of one argument. -/
inductive Macro1 where
  | fGetbyte (n : Nat) | fGetubyte (n : Nat) | fGethalf (n : Nat) | fGetuhalf (n : Nat)
  | fGetword (n : Nat) | fGetuword (n : Nat)
  | fCast4s | fCast4u | fCast8s | fCast8u
  | f8bitsof | fLsbold | fLsbnew | fNewreg | fNewregSt | fImmext
  | fAbs | fByteswap
  deriving Repr, DecidableEq

/-- Macros of two arguments. -/
inductive Macro2 where
  | fRotl4u | fRotl8u | fMax | fMin
  deriving Repr, DecidableEq

inductive Expr where
  | operand (o : Operand)
  | neg (e : Expr)
  | not (e : Expr)
  | bitNot (e : Expr)
  | binop (o : Binop) (a b : Expr)
  | relop (o : Relop) (a b : Expr)
  | call0 (m : Macro0)
  | call1 (m : Macro1) (a : Expr)
  | call2 (m : Macro2) (a b : Expr)
  deriving Repr, DecidableEq

inductive Stmt where
  | skip
  | seq (s t : Stmt)
  | assg (lv : Operand) (e : Expr)
  | assgBinop (lv : Operand) (op : Assgop) (e : Expr)
  | ifThen (c : Expr) (t : Stmt)
  | ifElse (c : Expr) (t f : Stmt)
  | fImmext (l : ImmLetter)
  | fPcalign (l : ImmLetter)
  | fBranch (loc : Expr) (typ : BranchType)
  | fJumpr (regno loc : Expr) (typ : BranchType)
  | fTrap
  | fBreak
  | fStore (size : Nat) (src : Expr)
  | fStoreLocked (size : Nat) (src : Expr) (pred : Operand)
  | fLoad (size : Nat) (signed : Bool) (dst : Operand)
  | fWriteFp (a : Expr)
  | fWriteLr (a : Expr)
  | fWriteSp (a : Expr)
  | fWriteP (n : Nat) (val : Expr)
  | fWriteLoopRegs (n : Nat) (start count : Expr)
  | fSetLpcfg (val : Expr)
  | fWriteLc (n : Nat) (val : Expr)
  | fSethalf (n : Nat) (dst : Operand) (val : Expr)
  | fSetword (n : Nat) (dst : Operand) (val : Expr)
  deriving Repr, DecidableEq

/-- `?stmt`s in a row, as in `fbody` and `multi_stmt`. -/
def Stmt.block : List Stmt → Stmt
  | [] => .skip
  | [s] => s
  | s :: l => .seq s (block l)

end Hex
