import BinjaHexagon.IlUtil
/-!
# CondLines — the conditionals as `gen_il_func` writes them

`if_stmt` returns a flat list: a `RawC` that opens a C++ block and declares the labels, an `IlIf`, the parts between
`IlLabel`s, and a `RawC` that closes the block again.  The labels of nested conditionals have the same names; a name in
the generated text is the innermost declaration that is open there.
-/
namespace Hex

open Flow (Block Instr)

/-- The names `if_stmt` gives its labels. -/
inductive CondLabel where
  | trueCase | falseCase | done
  deriving Repr, DecidableEq

/-- An element of the lists the transformer returns. -/
inductive GenLine where
  | item (i : GenItem)
  | openScope (labels : List CondLabel)
  | ilIf (c : GExpr) (t f : CondLabel)
  | label (l : CondLabel)
  | goto (l : CondLabel)
  | closeScope
  deriving Repr, DecidableEq

def ifElseLines (c : GExpr) (tstmt fstmt : List GenLine) : List GenLine :=
  [.openScope [.trueCase, .falseCase, .done], .ilIf c .trueCase .falseCase, .label .trueCase] ++ tstmt ++
    [.goto .done, .label .falseCase] ++ fstmt ++ [.label .done, .closeScope]

def ifThenLines (c : GExpr) (tstmt : List GenLine) : List GenLine :=
  [.openScope [.trueCase, .done], .ilIf c .trueCase .done, .label .trueCase] ++ tstmt ++ [.label .done, .closeScope]

/-- `if_stmt`; a list is true in Python when it is not empty. -/
def ifStmtLines (c : GExpr) (tstmt fstmt : List GenLine) : List GenLine :=
  if fstmt ≠ [] then ifElseLines c tstmt fstmt else ifThenLines c tstmt

/-- A block as the list it is. -/
def GBlock.lines : GBlock → List GenLine
  | .nil => []
  | .act a r => .item a :: GBlock.lines r
  | .ifThen c t r => ifThenLines c (GBlock.lines t) ++ GBlock.lines r
  | .ifElse c t f r => ifElseLines c (GBlock.lines t) (GBlock.lines f) ++ GBlock.lines r

/-- The list a statement is transformed into: `fbody` and `multi_stmt` chain the lists of their parts, `ternary_stmt` is
`if_stmt`. -/
def Stmt.lines (condJ : Bool) : Stmt → Option (List GenLine)
  | .seq s t => do
    let ls ← s.lines condJ
    let lt ← t.lines condJ
    some (ls ++ lt)
  | .ifThen c t => do
    let v ← c.transform
    let lt ← t.lines condJ
    if c.isToken then none else some (ifStmtLines v.expr lt [])
  | .ifElse c t f => do
    let v ← c.transform
    let lt ← t.lines condJ
    let lf ← f.lines condJ
    if c.isToken then none else some (ifStmtLines v.expr lt lf)
  | s => (s.transform condJ).map GBlock.lines

/-- What the generated function has open while its text runs: the immediates, the labels in scope, the number of the
next `LowLevelILLabel`, and the IL added so far. -/
structure LineState where
  imms : ImmLetter → BitVec 32
  scopes : List (List (CondLabel × Nat))
  next : Nat
  code : List EmitInstr

namespace LineState

/-- The innermost label of that name. -/
def resolve (s : LineState) (l : CondLabel) : Option Nat := s.scopes.flatten.lookup l

def add (s : LineState) (c : List EmitInstr) : LineState := { s with code := s.code ++ c }

/-- One line of the text.  A name nobody declares, or a `}` too many, does not compile. -/
def step (E : LiftEnv) (s : LineState) : GenLine → Option LineState
  | .item i =>
    let k := E.item s.imms i
    some { s.add ((k.2.bind LiftAct.emit).map Instr.act).toList with imms := k.1 }
  | .openScope ls =>
    some { s with scopes := ls.zip (List.range' s.next ls.length) :: s.scopes, next := s.next + ls.length }
  | .ilIf c t f => do
    let t ← s.resolve t
    let f ← s.resolve f
    some (s.add [.branch ((E.expr s.imms c).map LReg.index) t f])
  | .label l => do
    let l ← s.resolve l
    some (s.add [.label l])
  | .goto l => do
    let l ← s.resolve l
    some (s.add [.goto l])
  | .closeScope =>
    match s.scopes with
    | [] => none
    | _ :: rest => some { s with scopes := rest }

end LineState

/-- The text run line by line. -/
def execLines (E : LiftEnv) : List GenLine → LineState → Option LineState
  | [], s => some s
  | l :: ls, s => (s.step E l).bind (execLines E ls)

theorem execLines_append (E : LiftEnv) : ∀ (ls ms : List GenLine) (s : LineState),
    execLines E (ls ++ ms) s = (execLines E ls s).bind (execLines E ms)
  | [], _, _ => rfl
  | l :: ls, ms, s => by
    rw [List.cons_append, execLines, execLines]
    cases s.step E l with
    | none => rfl
    | some t => exact execLines_append E ls ms t

theorem GBlock.lines_append : ∀ b k : GBlock, GBlock.lines (b ++ k) = GBlock.lines b ++ GBlock.lines k
  | .nil, _ => rfl
  | .act a r, k => by rw [Block.act_append, lines, lines_append r, lines, List.cons_append]
  | .ifThen c t r, k => by rw [Block.ifThen_append, lines, lines_append r, lines, List.append_assoc]
  | .ifElse c t f r, k => by rw [Block.ifElse_append, lines, lines_append r, lines, List.append_assoc]

theorem GBlock.lines_eq_nil : ∀ {b : GBlock}, GBlock.lines b = [] → b = .nil
  | .nil, _ => rfl
  | .act _ _, h => by cases h
  | .ifThen _ _ _, h => by simp [lines, ifThenLines] at h
  | .ifElse _ _ _ _, h => by simp [lines, ifElseLines] at h

/-- `if_stmt` looks at its list where `ifStmt` looks at its block. -/
theorem lines_ifStmt (c : GExpr) (t f : GBlock) :
    GBlock.lines (ifStmt c t f) = ifStmtLines c (GBlock.lines t) (GBlock.lines f) := by
  by_cases hf : f = .nil
  · subst hf
    exact List.append_nil _
  · have hl : GBlock.lines f ≠ [] := fun h => hf (GBlock.lines_eq_nil h)
    have hs : ifStmt c t f = .ifElse c t f .nil := by
      unfold ifStmt
      split
      · contradiction
      · rfl
    rw [hs, ifStmtLines, if_pos hl]
    exact List.append_nil _

/-- **The lists the transformer returns are those of the blocks.** -/
theorem Stmt.lines_eq (condJ : Bool) : ∀ s : Stmt, s.lines condJ = (s.transform condJ).map GBlock.lines
  | .seq s t => by
    rw [Stmt.lines, Stmt.transform, lines_eq condJ s, lines_eq condJ t]
    cases s.transform condJ with
    | none => rfl
    | some bs =>
      cases t.transform condJ with
      | none => rfl
      | some bt => exact congrArg some (GBlock.lines_append bs bt).symm
  | .ifThen c t => by
    rw [Stmt.lines, Stmt.transform, lines_eq condJ t]
    cases c.transform with
    | none => rfl
    | some v =>
      cases t.transform condJ with
      | none => rfl
      | some bt =>
        have h : ifStmtLines v.expr (GBlock.lines bt) [] = GBlock.lines (ifStmt v.expr bt .nil) :=
          (lines_ifStmt v.expr bt .nil).symm
        by_cases hc : c.isToken
        · simp [hc]
        · simp [hc, h]
  | .ifElse c t f => by
    rw [Stmt.lines, Stmt.transform, lines_eq condJ t, lines_eq condJ f]
    cases c.transform with
    | none => rfl
    | some v =>
      cases t.transform condJ with
      | none => rfl
      | some bt =>
        cases f.transform condJ with
        | none => rfl
        | some bf =>
          by_cases hc : c.isToken
          · simp [hc]
          · simpa [hc] using (lines_ifStmt v.expr bt bf).symm
  | .skip | .assg _ _ | .assgBinop _ _ _ | .fImmext _ | .fPcalign _ | .fBranch _ _ | .fJumpr _ _ _ | .fTrap | .fBreak
  | .fStore _ _ | .fStoreLocked _ _ _ | .fLoad _ _ _ | .fWriteFp _ | .fWriteLr _ | .fWriteSp _ | .fWriteP _ _
  | .fWriteLoopRegs _ _ _ | .fSetLpcfg _ | .fWriteLc _ _ | .fSethalf _ _ _ | .fSetword _ _ _ => rfl

section Scopes

variable (E : LiftEnv) (c : GExpr) (s : LineState)

theorem execLines_openThen : execLines E [.openScope [.trueCase, .done], .ilIf c .trueCase .done, .label .trueCase] s =
    some ⟨s.imms, [(.trueCase, s.next), (.done, s.next + 1)] :: s.scopes, s.next + 2, s.code ++
      [.branch ((E.expr s.imms c).map LReg.index) s.next (s.next + 1), .label s.next]⟩ := by
  rw [List.append_cons s.code]
  rfl

theorem execLines_openElse :
    execLines E [.openScope [.trueCase, .falseCase, .done], .ilIf c .trueCase .falseCase, .label .trueCase] s =
      some ⟨s.imms, [(.trueCase, s.next), (.falseCase, s.next + 1), (.done, s.next + 2)] :: s.scopes, s.next + 3,
        s.code ++ [.branch ((E.expr s.imms c).map LReg.index) s.next (s.next + 1), .label s.next]⟩ := by
  rw [List.append_cons s.code]
  rfl

variable {imms : ImmLetter → BitVec 32} {scopes : List (List (CondLabel × Nat))} {n next : Nat} {code : List EmitInstr}

theorem execLines_closeThen : execLines E [.label .done, .closeScope]
    ⟨imms, [(.trueCase, n), (.done, n + 1)] :: scopes, next, code⟩ =
      some ⟨imms, scopes, next, code ++ [.label (n + 1)]⟩ := rfl

theorem execLines_betweenElse : execLines E [.goto .done, .label .falseCase]
    ⟨imms, [(.trueCase, n), (.falseCase, n + 1), (.done, n + 2)] :: scopes, next, code⟩ =
      some ⟨imms, [(.trueCase, n), (.falseCase, n + 1), (.done, n + 2)] :: scopes, next,
        code ++ [.goto (n + 2), .label (n + 1)]⟩ := by
  rw [List.append_cons code]
  rfl

theorem execLines_closeElse : execLines E [.label .done, .closeScope]
    ⟨imms, [(.trueCase, n), (.falseCase, n + 1), (.done, n + 2)] :: scopes, next, code⟩ =
      some ⟨imms, scopes, next, code ++ [.label (n + 2)]⟩ := rfl

end Scopes

/-- **The text of a block, run**: what its instance emits, with labels from the next one on, and the scopes left as they
were. -/
theorem execLines_lines (E : LiftEnv) : ∀ (b : GBlock) (s : LineState),
    execLines E (GBlock.lines b) s =
      let i := b.instantiate E.item E.expr s.imms
      let e := (LiftBlock.emitted i.2).emit Transfer s.next
      some ⟨i.1, s.scopes, e.2, s.code ++ e.1⟩
  | .nil, s => by
    simp only [GBlock.lines, execLines, Block.instantiate, LiftBlock.emitted, Block.filterMap, Block.emit,
      List.append_nil]
  | .act a r, s => by
    rw [GBlock.lines, execLines, LineState.step]
    simp only [Option.bind_some, execLines_lines E r, Block.instantiate, LineState.add]
    cases (E.item s.imms a).2 with
    | none => simp only [Option.bind_none, Option.map_none, Option.toList_none, List.append_nil]
    | some a' =>
      simp only [Option.bind_some, LiftBlock.emitted, Block.filterMap]
      cases a'.emit with
      | none => simp only [Option.map_none, Option.toList_none, List.append_nil]
      | some e => simp only [Option.map_some, Option.toList_some, Block.emit, List.append_assoc, List.singleton_append]
  | .ifThen c t r, s => by
    rw [GBlock.lines, ifThenLines, execLines_append, execLines_append, execLines_append, execLines_openThen,
      Option.bind_some, execLines_lines E t, Option.bind_some, execLines_closeThen, Option.bind_some,
      execLines_lines E r]
    simp only [Block.instantiate, LiftBlock.emitted, Block.filterMap, Block.emit, List.append_assoc, List.cons_append,
      List.nil_append]
  | .ifElse c t f r, s => by
    rw [GBlock.lines, ifElseLines, execLines_append, execLines_append, execLines_append, execLines_append,
      execLines_append, execLines_openElse, Option.bind_some, execLines_lines E t, Option.bind_some,
      execLines_betweenElse, Option.bind_some, execLines_lines E f, Option.bind_some, execLines_closeElse,
      Option.bind_some, execLines_lines E r]
    simp only [Block.instantiate, LiftBlock.emitted, Block.filterMap, Block.emit, List.append_assoc, List.cons_append,
      List.nil_append]

end Hex
