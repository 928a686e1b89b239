import BinjaHexagon.GenIl
/-!
# LiftShape — what the transformer's lists are made of

Every list of items a behaviour is transformed into is built from single instructions that write a register of the
behaviour, from `macro_stmt_fBRANCH`, and from the two shapes of `if_stmt`.
-/
namespace Hex

open Flow (Block)

/-- A register the behaviour text itself can assign. -/
def RegName.assignable : RegName → Bool
  | .branchrDest | .branchTaken => false
  | _ => true

/-- The blocks a statement is transformed into. -/
inductive Shape (condJ : Bool) : GBlock → Prop where
  | nil : Shape condJ .nil
  | insn (i : IlInsn RegName ConstName) (h : ∀ d ∈ i.dests, d.2.assignable = true) :
      Shape condJ (.act (.insn i) .nil)
  | pcalign (l : ImmLetter) : Shape condJ (.act (.pcalign l) .nil)
  | branch (loc : IlVal) (typ : BranchType) (b : GBlock) (h : macroBranch condJ loc typ = some b) : Shape condJ b
  | append {b k : GBlock} (hb : Shape condJ b) (hk : Shape condJ k) : Shape condJ (b ++ k)
  | ifThen (c : GExpr) {t : GBlock} (ht : Shape condJ t) : Shape condJ (.ifThen c t .nil)
  | ifElse (c : GExpr) {t f : GBlock} (ht : Shape condJ t) (hf : Shape condJ f) : Shape condJ (.ifElse c t f .nil)

variable {condJ : Bool}

theorem Shape.setRegister {r : RegName} (h : r.assignable = true) (size : Nat) (v : IlVal) :
    Shape condJ (setRegister size r v) :=
  .insn _ fun d hd => by rw [List.mem_singleton.1 hd]; exact h

theorem Shape.ifStmt (c : GExpr) {t f : GBlock} (ht : Shape condJ t) (hf : Shape condJ f) :
    Shape condJ (ifStmt c t f) := by
  cases f with
  | nil => exact .ifThen c ht
  | act a r => exact .ifElse c ht hf
  | ifThen e u r => exact .ifElse c ht hf
  | ifElse e u w r => exact .ifElse c ht hf

theorem Shape.store (size : Nat) (a v : GExpr) : Shape condJ (.act (.insn (.store size a v)) .nil) :=
  .insn _ fun _ hd => absurd hd List.not_mem_nil

/-- An operand that is a register is one the behaviour may assign. -/
theorem register?_liftOperand {o : Operand} {r : RegName} (h : (liftOperand o).register? = some r) :
    r.assignable = true := by
  cases o with
  | tmp n => cases n <;> cases h <;> rfl
  | imm l => cases h
  | intcon n => cases h
  | _ => cases h; rfl

theorem Shape.assg {lv : Operand} {l v : IlVal} {b : GBlock} (hl : l.register? = (liftOperand lv).register?)
    (h : Hex.assg l v = some b) : Shape condJ b := by
  simp only [Hex.assg, bind, Option.bind_eq_some_iff] at h
  obtain ⟨r, hr, h⟩ := h
  cases h
  exact .setRegister (register?_liftOperand (hl ▸ hr)) _ _

/-- **Every transformed statement has the shape.** -/
theorem transform_shape : ∀ {s : Stmt} {b : GBlock}, s.transform condJ = some b → Shape condJ b
  | .skip, b, h | .fImmext _, b, h => by cases h; exact .nil
  | .seq s t, b, h => by
    simp only [Stmt.transform, bind, Option.bind_eq_some_iff] at h
    obtain ⟨bs, hs, bt, ht, h⟩ := h
    cases h
    exact .append (transform_shape hs) (transform_shape ht)
  | .assg lv e, b, h => by
    simp only [Stmt.transform, bind, Option.bind_eq_some_iff] at h
    obtain ⟨v, -, h⟩ := h
    exact .assg rfl h
  | .assgBinop lv op e, b, h => by
    simp only [Stmt.transform, bind, Option.bind_eq_some_iff] at h
    obtain ⟨v, -, h⟩ := h
    exact .assg rfl h
  | .ifThen c t, b, h => by
    simp only [Stmt.transform, bind, Option.bind_eq_some_iff] at h
    obtain ⟨v, -, bt, ht, h⟩ := h
    split at h
    · cases h
    · cases h; exact .ifStmt _ (transform_shape ht) .nil
  | .ifElse c t f, b, h => by
    simp only [Stmt.transform, bind, Option.bind_eq_some_iff] at h
    obtain ⟨v, -, bt, ht, bf, hf, h⟩ := h
    split at h
    · cases h
    · cases h; exact .ifStmt _ (transform_shape ht) (transform_shape hf)
  | .fPcalign l, b, h => by cases h; exact .pcalign l
  | .fBranch loc typ, b, h => by
    simp only [Stmt.transform, bind, Option.bind_eq_some_iff] at h
    obtain ⟨v, -, h⟩ := h
    exact .branch v _ b h
  | .fJumpr regno loc typ, b, h => by
    simp only [Stmt.transform, bind, Option.bind_eq_some_iff] at h
    obtain ⟨v, -, h⟩ := h
    exact .branch v _ b h
  | .fTrap, b, h | .fBreak, b, h => by cases h; exact .insn _ fun _ hd => absurd hd List.not_mem_nil
  | .fStore size src, b, h => by
    simp only [Stmt.transform, bind, Option.bind_eq_some_iff] at h
    obtain ⟨v, -, h⟩ := h
    cases h
    exact .store _ _ _
  | .fStoreLocked size src pred, b, h => by
    simp only [Stmt.transform, bind, Option.bind_eq_some_iff] at h
    obtain ⟨v, -, r, hr, h⟩ := h
    cases h
    exact .append (.store _ _ _) (.setRegister (register?_liftOperand hr) _ _)
  | .fLoad size signed dst, b, h => .assg rfl h
  | .fWriteFp a, b, h | .fWriteLr a, b, h | .fWriteSp a, b, h | .fSetLpcfg a, b, h | .fWriteP n a, b, h => by
    simp only [Stmt.transform, bind, Option.bind_eq_some_iff] at h
    obtain ⟨v, -, h⟩ := h
    cases h
    exact .setRegister rfl _ _
  | .fWriteLoopRegs n start count, b, h => by
    simp only [Stmt.transform, bind, Option.bind_eq_some_iff] at h
    obtain ⟨v, -, w, -, h⟩ := h
    split at h <;> cases h
    · exact .append (.setRegister rfl _ _) (.setRegister rfl _ _)
    · exact .append (.setRegister rfl _ _) (.setRegister rfl _ _)
  | .fWriteLc n a, b, h => by
    simp only [Stmt.transform, bind, Option.bind_eq_some_iff] at h
    obtain ⟨v, -, h⟩ := h
    split at h <;> cases h
    · exact .setRegister rfl _ _
    · exact .setRegister rfl _ _
  | .fSethalf n dst a, b, h | .fSetword n dst a, b, h => by
    simp only [Stmt.transform, bind, Option.bind_eq_some_iff] at h
    obtain ⟨v, -, r, hr, h⟩ := h
    split at h <;> cases h
    exact .setRegister (register?_liftOperand hr) _ _

end Hex
