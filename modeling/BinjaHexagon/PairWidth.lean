import BinjaHexagon.LiftSizes
import BinjaHexagon.Machine
/-!
# PairWidth — the widths of operands, and of the operators on them

The transformer sizes an operand by a regular expression over its letters, `genptr_decl` by its kind, and
`PacketContext` registers, copies and writes back what `genptr_decl` says.  Every operator gets the size of its left
operand.  A pair is computed with in full where the two sizes agree and no eight bytes stand to the right of a narrower
operand.
-/
namespace Hex

namespace OperandDecl

/-- The token that names the operand in the behaviour. -/
def token (d : OperandDecl) : Operand := if d.isNew then .regNew d.regtype d.regid else .regOld d.regtype d.regid

/-- The size `PacketContext` copies it in, registers it and writes it back at. -/
def width (d : OperandDecl) : Option Nat :=
  match d.kind with
  | some .sourcePair => some 8
  | some (.dest _ size) => some size
  | _ => none

end OperandDecl

section Widths

variable (ds : List OperandDecl)

/-- The bytes a register operand has by its declaration, else by the transformer. -/
def declaredBytes (name : RegName) : Nat := ((ds.find? (·.name == name)).bind OperandDecl.width).getD name.size

def Operand.bytes : Operand → Nat
  | .regOld t id => declaredBytes ds (.oldV t id)
  | .regNew t id => declaredBytes ds (.newN t id)
  | .regLr | .imm _ | .ea | .intcon _ => 4
  | .tmp _ => 8

def Macro0.bytes : Macro0 → Nat
  | .fReadP0 | .fReadLpcfg => 1
  | _ => 4

/-- Of the result, the argument having `n` bytes. -/
def Macro1.bytes (m : Macro1) (arg : Expr) (n : Nat) : Nat :=
  match m with
  | .fGetbyte _ | .fGetubyte _ => 1
  | .fCast4s | .fCast4u | .fByteswap => 4
  | .fCast8s | .fCast8u => 8
  | .fLsbnew => if arg = .operand (.intcon 0) ∨ arg = .operand (.intcon 1) then 1 else n
  | _ => n

/-- The bytes of an expression of the behaviour: an operator has those of its left operand. -/
def Expr.bytes : Expr → Nat
  | .operand o => o.bytes ds
  | .neg e | .not e | .bitNot e => e.bytes
  | .binop _ a _ | .relop _ a _ | .call2 _ a _ => a.bytes
  | .call0 m => m.bytes
  | .call1 m e => m.bytes e e.bytes

end Widths

/-- An operator of the behaviour: whether it shifts, and its operands. -/
structure Operation where
  shift : Bool
  left : Expr
  right : Expr
  deriving Repr, DecidableEq

def Binop.isShift : Binop → Bool
  | .shl | .shr => true
  | .add | .sub | .mul | .div | .or | .and | .xor => false

def Expr.operations : Expr → List Operation
  | .operand _ | .call0 _ => []
  | .neg e | .not e | .bitNot e | .call1 _ e => e.operations
  | .binop o a b => ⟨o.isShift, a, b⟩ :: (a.operations ++ b.operations)
  | .relop _ a b => ⟨false, a, b⟩ :: (a.operations ++ b.operations)
  | .call2 _ a b => a.operations ++ b.operations

/-- The operators a behaviour lifts. -/
def Stmt.operations : Stmt → List Operation
  | .skip | .fImmext _ | .fPcalign _ | .fTrap | .fBreak | .fLoad _ _ _ => []
  | .seq s t => s.operations ++ t.operations
  | .assgBinop lv _ e => ⟨false, .operand lv, e⟩ :: e.operations
  | .ifThen c t => c.operations ++ t.operations
  | .ifElse c t f => c.operations ++ (t.operations ++ f.operations)
  | .assg _ e | .fBranch e _ | .fJumpr _ e _ | .fStore _ e | .fStoreLocked _ e _ | .fWriteFp e | .fWriteLr e
  | .fWriteSp e | .fSetLpcfg e | .fWriteLc _ e | .fWriteP _ e | .fSethalf _ _ e | .fSetword _ _ e => e.operations
  | .fWriteLoopRegs _ a b => a.operations ++ b.operations

namespace Operation

variable (ds : List OperandDecl) (q : Operation)

end Operation

section Sizes

variable {ds : List OperandDecl}

end Sizes

section Operations

theorem Expr.left_transform : ∀ {e : Expr} {v : IlVal}, e.transform = some v →
    ∀ q ∈ e.operations, ∃ w, q.left.transform = some w
  | .operand _, _, _, q, hq | .call0 _, _, _, q, hq => absurd hq List.not_mem_nil
  | .neg e, v, h, q, hq | .not e, v, h, q, hq | .bitNot e, v, h, q, hq => by
    simp only [transform, bind, Option.bind_eq_some_iff] at h
    obtain ⟨a, ha, -⟩ := h
    exact left_transform ha q hq
  | .call1 m e, v, h, q, hq => by
    simp only [transform, bind, Option.bind_eq_some_iff] at h
    obtain ⟨a, ha, -⟩ := h
    exact left_transform ha q hq
  | .binop o a b, v, h, q, hq => by
    simp only [transform, bind, Option.bind_eq_some_iff] at h
    obtain ⟨x, hx, y, hy, -⟩ := h
    rcases List.mem_cons.1 hq with rfl | hq
    · exact ⟨x, hx⟩
    · exact (List.mem_append.1 hq).elim (left_transform hx q) (left_transform hy q)
  | .relop o a b, v, h, q, hq => by
    simp only [transform, bind, Option.bind_eq_some_iff] at h
    obtain ⟨x, hx, y, hy, -⟩ := h
    rcases List.mem_cons.1 hq with rfl | hq
    · exact ⟨x, hx⟩
    · exact (List.mem_append.1 hq).elim (left_transform hx q) (left_transform hy q)
  | .call2 m a b, v, h, q, hq => by
    simp only [transform, bind, Option.bind_eq_some_iff] at h
    obtain ⟨x, hx, y, hy, -⟩ := h
    exact (List.mem_append.1 hq).elim (left_transform hx q) (left_transform hy q)

theorem Stmt.left_transform {condJ : Bool} : ∀ {s : Stmt} {b : GBlock}, s.transform condJ = some b →
    ∀ q ∈ s.operations, ∃ w, q.left.transform = some w
  | .skip, _, _, q, hq | .fImmext _, _, _, q, hq | .fPcalign _, _, _, q, hq | .fTrap, _, _, q, hq | .fBreak, _, _, q, hq
  | .fLoad _ _ _, _, _, q, hq => absurd hq List.not_mem_nil
  | .seq s t, b, h, q, hq => by
    simp only [transform, bind, Option.bind_eq_some_iff] at h
    obtain ⟨x, hx, y, hy, -⟩ := h
    exact (List.mem_append.1 hq).elim (left_transform hx q) (left_transform hy q)
  | .assgBinop lv op e, b, h, q, hq => by
    simp only [transform, bind, Option.bind_eq_some_iff] at h
    obtain ⟨v, hv, -⟩ := h
    rcases List.mem_cons.1 hq with rfl | hq
    · exact ⟨_, rfl⟩
    · exact Expr.left_transform hv q hq
  | .ifThen c t, b, h, q, hq => by
    simp only [transform, bind, Option.bind_eq_some_iff] at h
    obtain ⟨v, hv, x, hx, -⟩ := h
    exact (List.mem_append.1 hq).elim (Expr.left_transform hv q) (left_transform hx q)
  | .ifElse c t f, b, h, q, hq => by
    simp only [transform, bind, Option.bind_eq_some_iff] at h
    obtain ⟨v, hv, x, hx, y, hy, -⟩ := h
    rcases List.mem_append.1 hq with hq | hq
    · exact Expr.left_transform hv q hq
    · exact (List.mem_append.1 hq).elim (left_transform hx q) (left_transform hy q)
  | .assg _ e, b, h, q, hq | .fBranch e _, b, h, q, hq | .fJumpr _ e _, b, h, q, hq | .fStore _ e, b, h, q, hq
  | .fStoreLocked _ e _, b, h, q, hq | .fWriteFp e, b, h, q, hq | .fWriteLr e, b, h, q, hq | .fWriteSp e, b, h, q, hq
  | .fSetLpcfg e, b, h, q, hq | .fWriteLc _ e, b, h, q, hq | .fWriteP _ e, b, h, q, hq | .fSethalf _ _ e, b, h, q, hq
  | .fSetword _ _ e, b, h, q, hq => by
    simp only [transform, bind, Option.bind_eq_some_iff] at h
    obtain ⟨v, hv, -⟩ := h
    exact Expr.left_transform hv q hq
  | .fWriteLoopRegs _ a c, b, h, q, hq => by
    simp only [transform, bind, Option.bind_eq_some_iff] at h
    obtain ⟨v, hv, w, hw, -⟩ := h
    exact (List.mem_append.1 hq).elim (Expr.left_transform hv q) (Expr.left_transform hw q)

theorem processSemantics_transform {condJ : Bool} : ∀ {ps : List Stmt} {bs : List GBlock},
    processSemantics condJ ps = some bs → ∀ p ∈ ps, ∃ b, p.transform condJ = some b
  | [], _, _, p, hp => absurd hp List.not_mem_nil
  | p :: ps, _, h, r, hr => by
    simp only [processSemantics, bind, Option.bind_eq_some_iff] at h
    obtain ⟨b, hb, bs, hbs, -⟩ := h
    rcases List.mem_cons.1 hr with rfl | hr
    · exact ⟨b, hb⟩
    · exact processSemantics_transform hbs r hr

/-- The operators of an opcode. -/
def OpcodeRow.operations (o : OpcodeRow) : List Operation := o.parts.flatMap Stmt.operations

theorem Opcode.left_transform {o : Opcode} (hs : o.supported = true) :
    ∀ q ∈ o.operations, ∃ w, q.left.transform = some w := by
  intro q hq
  obtain ⟨p, hp, hq⟩ := List.mem_flatMap.1 hq
  have hg := o.generated hs
  simp only [OpcodeRow.generates, Bool.and_eq_true] at hg
  obtain ⟨bs, hbs⟩ := Option.isSome_iff_exists.1 hg.1.1
  obtain ⟨b, hb⟩ := processSemantics_transform hbs p hp
  exact Stmt.left_transform hb q hq

end Operations
end Hex
