import BinjaHexagon.Grouping
import BinjaHexagon.GenIl
/-!
# SemanticsParser — the expressions of `semantics_grammar`, parsed

The expression rules are one flat `expr: … | expr BINOP expr | …`; the LALR(1) parser made of them shifts whenever it
can.  Beside the parser stands the grouping of C, with C's levels of precedence.
-/
namespace Hex

open Grouping (Chain Tree)

/-- `"-" expr`, `"!" expr`, `"~" expr`. -/
inductive Unop where
  | neg | not | bitNot
  deriving Repr, DecidableEq

/-- `BINOP` and `RELOP`. -/
inductive InfixOp where
  | binop (o : Binop)
  | relop (o : Relop)
  deriving Repr, DecidableEq

def Unop.apply : Unop → Expr → Expr
  | .neg, e => .neg e
  | .not, e => .not e
  | .bitNot, e => .bitNot e

def InfixOp.apply : InfixOp → Expr → Expr → Expr
  | .binop o, a, b => .binop o a b
  | .relop o, a, b => .relop o a b

/-- A token; the opening of a call is one token with the literal arguments of the macro. -/
inductive Token where
  | operand (o : Operand)
  | pre (p : Unop)
  | op (o : InfixOp)
  | lpar | rpar | comma
  | call0 (m : Macro0)
  | call1 (m : Macro1)
  | call2 (m : Macro2)
  deriving Repr, DecidableEq

/-- An expression as it is written: primaries between operators. -/
inductive Primary where
  | operand (o : Operand)
  | paren (t : Chain Unop InfixOp Primary)
  | call0 (m : Macro0)
  | call1 (m : Macro1) (t : Chain Unop InfixOp Primary)
  | call2 (m : Macro2) (t u : Chain Unop InfixOp Primary)

abbrev Text := Chain Unop InfixOp Primary

mutual

def Primary.tokens : Primary → List Token
  | .operand o => [.operand o]
  | .paren t => .lpar :: (Text.tokens t ++ [.rpar])
  | .call0 m => [.call0 m]
  | .call1 m t => .call1 m :: (Text.tokens t ++ [.rpar])
  | .call2 m t u => .call2 m :: (Text.tokens t ++ .comma :: (Text.tokens u ++ [.rpar]))

def Text.tokens : Text → List Token
  | .last ps a => ps.map .pre ++ a.tokens
  | .link ps a o c => ps.map .pre ++ (a.tokens ++ .op o :: Text.tokens c)

end

/-- What the parser has on its stack below the expression it is reading. -/
inductive Frame where
  | pre (p : Unop)
  | bin (o : InfixOp) (l : Expr)
  | paren
  | call1 (m : Macro1)
  | call2 (m : Macro2)
  | call2Snd (m : Macro2) (a : Expr)
  deriving Repr, DecidableEq

/-- Reduce, as far as nothing has to be shifted. -/
def reduce : List Frame → Expr → List Frame × Expr
  | .pre p :: st, e => reduce st (p.apply e)
  | .bin o l :: st, e => reduce st (o.apply l e)
  | st, e => (st, e)

/-- What the parser waits for: an operand, or whatever may follow the one it has. -/
inductive Mode where
  | operand (st : List Frame)
  | operator (st : List Frame) (e : Expr)

/-- The LALR(1) parser: an operator is shifted, and only what cannot be shifted makes it reduce. -/
def parseFrom : Mode → List Token → Option Expr
  | .operand st, .operand o :: ts => parseFrom (.operator st (.operand o)) ts
  | .operand st, .pre p :: ts => parseFrom (.operand (.pre p :: st)) ts
  | .operand st, .lpar :: ts => parseFrom (.operand (.paren :: st)) ts
  | .operand st, .call0 m :: ts => parseFrom (.operator st (.call0 m)) ts
  | .operand st, .call1 m :: ts => parseFrom (.operand (.call1 m :: st)) ts
  | .operand st, .call2 m :: ts => parseFrom (.operand (.call2 m :: st)) ts
  | .operator st e, .op o :: ts => parseFrom (.operand (.bin o e :: st)) ts
  | .operator st e, .rpar :: ts =>
    match reduce st e with
    | (.paren :: st, e) => parseFrom (.operator st e) ts
    | (.call1 m :: st, e) => parseFrom (.operator st (.call1 m e)) ts
    | (.call2Snd m a :: st, e) => parseFrom (.operator st (.call2 m a e)) ts
    | _ => none
  | .operator st e, .comma :: ts =>
    match reduce st e with
    | (.call2 m :: st, e) => parseFrom (.operand (.call2Snd m e :: st)) ts
    | _ => none
  | .operator st e, [] =>
    match reduce st e with
    | ([], e) => some e
    | _ => none
  | _, _ => none

/-- `semantics_parser.parse`, for an expression. -/
def parseExpr (ts : List Token) : Option Expr := parseFrom (.operand []) ts

/-- C's levels of precedence, the tightest highest. -/
def InfixOp.prec : InfixOp → Nat
  | .binop .mul | .binop .div => 8
  | .binop .add | .binop .sub => 7
  | .binop .shl | .binop .shr => 6
  | .relop .lt | .relop .le | .relop .gt | .relop .ge => 5
  | .relop .eq | .relop .ne => 4
  | .binop .and => 3
  | .binop .xor => 2
  | .binop .or => 1

def Expr.weight : Expr → Nat
  | .operand _ | .call0 _ => 0
  | .neg e | .not e | .bitNot e | .call1 _ e => e.weight + 1
  | .binop _ a b | .relop _ a b | .call2 _ a b => a.weight + b.weight + 1

/-- Behaviour expressions as the syntax that chains are written in. -/
def exprSyntax : Grouping.Syntax Unop InfixOp Expr where
  pre := Unop.apply
  bin := InfixOp.apply
  weight := Expr.weight
  pre_inj {p q x y} h := by cases p <;> cases q <;> cases h <;> rfl
  bin_inj {o o' x y x' y'} h := by cases o <;> cases o' <;> cases h <;> exact ⟨rfl, rfl, rfl⟩
  pre_ne_bin p x o y z := by cases p <;> cases o <;> exact Expr.noConfusion
  weight_pre p x := by cases p <;> exact Nat.le_succ _
  weight_bin o x y := by cases o <;> simp only [InfixOp.apply, Expr.weight] <;> omega

mutual

/-- The tree of a text when every conflict is settled as shift. -/
def Primary.shifted : Primary → Expr
  | .operand o => .operand o
  | .paren t => exprSyntax.eval (Text.shiftedChain t).shift
  | .call0 m => .call0 m
  | .call1 m t => .call1 m (exprSyntax.eval (Text.shiftedChain t).shift)
  | .call2 m t u =>
    .call2 m (exprSyntax.eval (Text.shiftedChain t).shift) (exprSyntax.eval (Text.shiftedChain u).shift)

def Text.shiftedChain : Text → Chain Unop InfixOp Expr
  | .last ps a => .last ps a.shifted
  | .link ps a o c => .link ps a.shifted o (Text.shiftedChain c)

end

mutual

/-- The tree of a text as C groups it. -/
def Primary.grouped : Primary → Expr
  | .operand o => .operand o
  | .paren t => exprSyntax.eval ((Text.groupedChain t).group InfixOp.prec)
  | .call0 m => .call0 m
  | .call1 m t => .call1 m (exprSyntax.eval ((Text.groupedChain t).group InfixOp.prec))
  | .call2 m t u =>
    .call2 m (exprSyntax.eval ((Text.groupedChain t).group InfixOp.prec))
      (exprSyntax.eval ((Text.groupedChain u).group InfixOp.prec))

def Text.groupedChain : Text → Chain Unop InfixOp Expr
  | .last ps a => .last ps a.grouped
  | .link ps a o c => .link ps a.grouped o (Text.groupedChain c)

end

def Text.shifted (t : Text) : Expr := exprSyntax.eval (Text.shiftedChain t).shift

def Text.grouped (t : Text) : Expr := exprSyntax.eval ((Text.groupedChain t).group InfixOp.prec)

end Hex
