import BinjaHexagon.GenIl
/-!
# LiftSizes — every name is accessed at its own size

`lift_operand` fixes the size of a register once; no macro reads or writes it at another.
-/
namespace Hex

open Flow (Block)

/-- The size the transformer gives a name. -/
def RegName.size : RegName → Nat
  | .oldV t id | .newN t id => regSize t id
  | .pd _ | .branchTaken => 1
  | .hexReg r => if r = hexRegUsrLpcfg then 1 else 4
  | .eaReg | .branchrDest => 4
  | .tmpReg | .widthReg | .offsetReg | .shamtReg => 8

/-- A register with the size it is accessed at. -/
def Sized (q : Nat × RegName) : Prop := q.1 = q.2.size

def IlVal.Reads (v : IlVal) : Prop := ∀ q ∈ v.expr.reads, Sized q

namespace IlVal

variable {v a b : IlVal}

theorem Reads.register {size : Nat} {r : RegName} (h : size = r.size) : (register size r).Reads :=
  fun q hq => by rw [List.mem_singleton.1 hq]; exact h

theorem Reads.const (size n : Nat) : (const size n).Reads := fun _ hq => absurd hq List.not_mem_nil

theorem Reads.unop (o : IlUnop) (size : Nat) (h : a.Reads) : (unop o size a).Reads := h

theorem Reads.binop (o : IlBinop) (size : Nat) (ha : a.Reads) (hb : b.Reads) : (binop o size a b).Reads :=
  fun q hq => (List.mem_append.1 hq).elim (ha q) (hb q)

theorem Reads.compare (o : IlCompare) (size : Nat) (ha : a.Reads) (hb : b.Reads) : (compare o size a b).Reads :=
  fun q hq => (List.mem_append.1 hq).elim (ha q) (hb q)

theorem Reads.signed (s : Bool) (h : v.Reads) : ({ v with signed := s } : IlVal).Reads := h

end IlVal

open IlVal (Reads)

theorem liftOperand_reads (o : Operand) : (liftOperand o).Reads := by
  cases o with
  | imm l => exact fun _ hq => absurd hq List.not_mem_nil
  | intcon n => exact .const _ _
  | tmp n => cases n <;> exact .register rfl
  | _ => exact .register rfl

/-- An operand that is a register is assigned at its size. -/
theorem liftOperand_size {o : Operand} {r : RegName} (h : (liftOperand o).register? = some r) :
    (liftOperand o).size = r.size := by
  cases o with
  | tmp n => cases n <;> cases h <;> rfl
  | imm l => cases h
  | intcon n => cases h
  | _ => cases h; rfl

theorem Macro0.transform_reads {m : Macro0} {v : IlVal} (h : m.transform = some v) : v.Reads := by
  cases m with
  | fFrameScramble =>
    cases h
    intro q hq
    rcases List.mem_cons.1 hq with rfl | hq
    · rfl
    · rw [List.mem_singleton.1 hq]; rfl
  | fReadPc => cases h; exact fun _ hq => absurd hq List.not_mem_nil
  | fReadGp => cases h; exact fun _ hq => absurd hq List.not_mem_nil
  | fReadLc n | fReadSa n => rcases n with _ | _ | n <;> cases h <;> exact .register rfl
  | _ => cases h; exact .register rfl

theorem getPart_reads (part n : Nat) (s : Bool) {v : IlVal} (h : v.Reads) : (getPart part n s v).Reads := by
  unfold getPart
  simp only
  split
  · exact .unop _ _ h
  · exact .unop _ _ (.binop _ _ h (.const _ _))

theorem cast_reads (size : Nat) (s : Bool) {v : IlVal} (h : v.Reads) : (cast size s v).Reads := by
  unfold cast
  split
  · exact .unop _ _ h
  · split
    · exact h
    · exact .unop _ _ h

theorem Macro1.transform_reads {m : Macro1} {arg : Expr} {a v : IlVal} (ha : a.Reads)
    (h : m.transform arg a = some v) : v.Reads := by
  cases m with
  | fGetbyte n | fGetubyte n => cases h; exact getPart_reads _ _ _ ha
  | fGethalf n | fGetuhalf n => cases h; exact .unop _ _ (getPart_reads _ _ _ ha)
  | fGetword n | fGetuword n =>
    simp only [transform, Option.ite_none_right_eq_some, Option.some.injEq] at h
    rw [← h.2]
    exact .unop _ _ (getPart_reads _ _ _ ha)
  | fCast4s | fCast4u => cases h; exact cast_reads _ _ ha
  | fCast8s | fCast8u =>
    simp only [transform, Option.ite_none_right_eq_some, Option.some.injEq] at h
    rw [← h.2]
    exact cast_reads _ _ ha
  | f8bitsof =>
    simp only [transform, Option.ite_none_right_eq_some, Option.some.injEq] at h
    rwa [← h.2]
  | fLsbold =>
    simp only [transform] at h
    split at h
    · split at h <;> cases h; exact ha
    · cases h
  | fLsbnew =>
    simp only [transform] at h
    split at h <;> cases h
    · exact .binop _ _ (.register rfl) (.const _ _)
    · exact .binop _ _ (.register rfl) (.const _ _)
    · exact .binop _ _ ha (.const _ _)
  | fNewreg | fNewregSt | fImmext =>
    simp only [transform] at h
    split at h <;> cases h
    exact ha
  | fAbs =>
    simp only [transform] at h
    split at h <;> cases h
    · exact .binop _ _ (.binop _ _ (.const _ _) (.binop _ _ (.const _ _) (.unop _ _ (.compare _ _ ha (.const _ _))))) ha
    · exact ha
  | fByteswap =>
    simp only [transform, Option.ite_none_right_eq_some, Option.some.injEq] at h
    rw [← h.2]
    have hb : ∀ (n : Nat), (IlVal.binop .and 4 a (.const 4 n)).Reads := fun n => .binop _ _ ha (.const _ _)
    exact .binop _ _ (.binop _ _ (hb _) (.const _ _)) (.binop _ _ (.binop _ _ (hb _) (.const _ _))
      (.binop _ _ (.binop _ _ (hb _) (.const _ _)) (.binop _ _ (hb _) (.const _ _))))

theorem select_reads (o o' : IlCompare) {a b : IlVal} (ha : a.Reads) (hb : b.Reads) : (select o o' a b).Reads :=
  .binop _ _ (.binop _ _ (.unop _ _ (.compare _ _ ha hb)) ha) (.binop _ _ (.unop _ _ (.compare _ _ ha hb)) hb)

theorem Macro2.transform_reads {m : Macro2} {a b v : IlVal} (ha : a.Reads) (hb : b.Reads)
    (h : m.transform a b = some v) : v.Reads := by
  cases m with
  | fRotl4u | fRotl8u =>
    simp only [transform, Option.ite_none_right_eq_some, Option.some.injEq] at h
    rw [← h.2]
    exact .binop _ _ ha hb
  | fMax | fMin =>
    simp only [transform, Option.ite_none_right_eq_some, Option.some.injEq] at h
    rw [← h.2]
    split <;> exact select_reads _ _ ha hb

/-- **An expression reads every name at its size.** -/
theorem Expr.transform_reads : ∀ {e : Expr} {v : IlVal}, e.transform = some v → v.Reads
  | .operand o, v, h => by cases h; exact liftOperand_reads o
  | .neg e, v, h | .not e, v, h | .bitNot e, v, h => by
    simp only [transform, bind, Option.bind_eq_some_iff] at h
    obtain ⟨a, ha, h⟩ := h
    cases h
    exact .unop _ _ (transform_reads ha)
  | .binop o a b, v, h => by
    simp only [transform, bind, Option.bind_eq_some_iff] at h
    obtain ⟨x, hx, y, hy, h⟩ := h
    have hr : ∀ o' s, (IlVal.binop o' s x y).Reads := fun o' s => .binop o' s (transform_reads hx) (transform_reads hy)
    cases o <;> cases h <;> exact hr _ _
  | .relop o a b, v, h => by
    simp only [transform, bind, Option.bind_eq_some_iff] at h
    obtain ⟨x, hx, y, hy, h⟩ := h
    cases h
    exact .compare _ _ (transform_reads hx) (transform_reads hy)
  | .call0 m, v, h => Macro0.transform_reads h
  | .call1 m e, v, h => by
    simp only [transform, bind, Option.bind_eq_some_iff] at h
    obtain ⟨x, hx, h⟩ := h
    exact Macro1.transform_reads (transform_reads hx) h
  | .call2 m a b, v, h => by
    simp only [transform, bind, Option.bind_eq_some_iff] at h
    obtain ⟨x, hx, y, hy, h⟩ := h
    exact Macro2.transform_reads (transform_reads hx) (transform_reads hy) h

/-- An instruction that reads and writes every name at its size, and writes no more than one. -/
def IlInsn.AllSized (i : IlInsn RegName ConstName) : Prop :=
  (∀ e ∈ i.exprs, ∀ q ∈ e.reads, Sized q) ∧ (∀ q ∈ i.dests, Sized q) ∧ i.dests.length ≤ 1

/-- So do all instructions and tests of a block. -/
def AllSized (b : GBlock) : Prop :=
  (∀ i, .insn i ∈ b.acts → i.AllSized) ∧ ∀ c ∈ b.tests, ∀ q ∈ c.reads, Sized q

namespace AllSized

theorem nil : AllSized .nil := ⟨fun _ h => absurd h List.not_mem_nil, fun _ h => absurd h List.not_mem_nil⟩

theorem act {i : IlInsn RegName ConstName} (h : i.AllSized) : AllSized (.act (.insn i) .nil) :=
  ⟨fun j hj => by cases List.mem_singleton.1 hj; exact h, fun _ h => absurd h List.not_mem_nil⟩

theorem mark {x : GenItem} (h : ∀ i, x ≠ .insn i) : AllSized (.act x .nil) :=
  ⟨fun i hi => absurd (List.mem_singleton.1 hi).symm (h i), fun _ h => absurd h List.not_mem_nil⟩

theorem append {b k : GBlock} (hb : AllSized b) (hk : AllSized k) : AllSized (b ++ k) := by
  refine ⟨fun i hi => ?_, fun c hc => ?_⟩
  · rw [Block.acts_append] at hi
    exact (List.mem_append.1 hi).elim (hb.1 i) (hk.1 i)
  · rw [Block.tests_append] at hc
    exact (List.mem_append.1 hc).elim (hb.2 c) (hk.2 c)

theorem setRegister {size : Nat} {r : RegName} {v : IlVal} (hs : size = r.size) (hv : v.Reads) :
    AllSized (setRegister size r v) :=
  act ⟨fun e he => by rw [List.mem_singleton.1 he]; exact hv, fun q hq => by rw [List.mem_singleton.1 hq]; exact hs,
    Nat.le_refl 1⟩

theorem ifStmt {v : IlVal} {t f : GBlock} (hv : v.Reads) (ht : AllSized t) (hf : AllSized f) :
    AllSized (ifStmt v.expr t f) := by
  have helse : AllSized (.ifElse v.expr t f .nil) := by
    refine ⟨fun i hi => ?_, fun c hc => ?_⟩
    · simp only [Block.acts, List.append_nil, List.mem_append] at hi
      exact hi.elim (ht.1 i) (hf.1 i)
    · simp only [Block.tests, List.append_nil, List.mem_cons, List.mem_append] at hc
      rcases hc with rfl | hc | hc
      · exact hv
      · exact ht.2 c hc
      · exact hf.2 c hc
  cases f with
  | nil =>
    refine ⟨fun i hi => ht.1 i (by simpa [Hex.ifStmt, Block.acts] using hi), fun c hc => ?_⟩
    simp only [Hex.ifStmt, Block.tests, List.append_nil, List.mem_cons] at hc
    rcases hc with rfl | hc
    · exact hv
    · exact ht.2 c hc
  | act a r => exact helse
  | ifThen e u r => exact helse
  | ifElse e u w r => exact helse

theorem assg {lv : Operand} {l v : IlVal} {b : GBlock} (hl : l = liftOperand lv) (hv : v.Reads)
    (h : Hex.assg l v = some b) : AllSized b := by
  simp only [Hex.assg, bind, Option.bind_eq_some_iff] at h
  obtain ⟨r, hr, h⟩ := h
  cases h
  exact setRegister (by rw [hl] at hr ⊢; exact liftOperand_size hr) hv

theorem fStore (size : Nat) {v : IlVal} (hv : v.Reads) : AllSized (fStore size v) := by
  refine act ⟨fun e he => ?_, fun _ h => absurd h List.not_mem_nil, Nat.zero_le 1⟩
  rcases List.mem_cons.1 he with rfl | he
  · exact liftOperand_reads .ea
  · rw [List.mem_singleton.1 he]; exact hv

theorem macroBranch {condJ : Bool} {loc : IlVal} {typ : BranchType} {b : GBlock} (hv : loc.Reads)
    (h : macroBranch condJ loc typ = some b) : AllSized b := by
  have htaken : AllSized (if condJ then Hex.setRegister 1 .branchTaken (.const 1 1) else .nil) := by
    split
    · exact setRegister rfl (.const _ _)
    · exact nil
  have hdest : AllSized (Hex.setRegister 4 .branchrDest loc) := setRegister rfl hv
  have hbranch : ∀ k, AllSized (.act (.branch k loc.expr) .nil) := fun k => mark fun _ => GenItem.noConfusion
  cases typ with
  | jump | jumpnew | call | ret => cases h; exact htaken.append (hbranch _)
  | jumpr | callr => cases h; exact (htaken.append hdest).append (hbranch _)
  | loopend0 | loopend1 =>
    simp only [Hex.macroBranch, Option.ite_none_right_eq_some, Option.some.injEq] at h
    rw [← h.2]
    exact (htaken.append hdest).append (hbranch _)

end AllSized

/-- **A behaviour accesses every name at its size.** -/
theorem transform_sized {condJ : Bool} : ∀ {s : Stmt} {b : GBlock}, s.transform condJ = some b → AllSized b
  | .skip, b, h | .fImmext _, b, h => by cases h; exact .nil
  | .seq s t, b, h => by
    simp only [Stmt.transform, bind, Option.bind_eq_some_iff] at h
    obtain ⟨bs, hs, bt, ht, h⟩ := h
    cases h
    exact .append (transform_sized hs) (transform_sized ht)
  | .assg lv e, b, h => by
    simp only [Stmt.transform, bind, Option.bind_eq_some_iff] at h
    obtain ⟨v, hv, h⟩ := h
    exact .assg rfl (Expr.transform_reads hv) h
  | .assgBinop lv op e, b, h => by
    simp only [Stmt.transform, bind, Option.bind_eq_some_iff] at h
    obtain ⟨v, hv, h⟩ := h
    exact .assg rfl (.binop _ _ (liftOperand_reads lv) (Expr.transform_reads hv)) h
  | .ifThen c t, b, h => by
    simp only [Stmt.transform, bind, Option.bind_eq_some_iff] at h
    obtain ⟨v, hv, bt, ht, h⟩ := h
    split at h
    · cases h
    · cases h; exact .ifStmt (Expr.transform_reads hv) (transform_sized ht) .nil
  | .ifElse c t f, b, h => by
    simp only [Stmt.transform, bind, Option.bind_eq_some_iff] at h
    obtain ⟨v, hv, bt, ht, bf, hf, h⟩ := h
    split at h
    · cases h
    · cases h; exact .ifStmt (Expr.transform_reads hv) (transform_sized ht) (transform_sized hf)
  | .fPcalign l, b, h => by cases h; exact .mark fun _ => GenItem.noConfusion
  | .fBranch loc typ, b, h | .fJumpr regno loc typ, b, h => by
    simp only [Stmt.transform, bind, Option.bind_eq_some_iff] at h
    obtain ⟨v, hv, h⟩ := h
    exact .macroBranch (Expr.transform_reads hv) h
  | .fTrap, b, h | .fBreak, b, h => by
    cases h
    exact .act ⟨fun _ h => absurd h List.not_mem_nil, fun _ h => absurd h List.not_mem_nil, Nat.zero_le 1⟩
  | .fStore size src, b, h => by
    simp only [Stmt.transform, bind, Option.bind_eq_some_iff] at h
    obtain ⟨v, hv, h⟩ := h
    cases h
    exact .fStore size (Expr.transform_reads hv)
  | .fStoreLocked size src pred, b, h => by
    simp only [Stmt.transform, bind, Option.bind_eq_some_iff] at h
    obtain ⟨v, hv, r, hr, h⟩ := h
    cases h
    exact .append (.fStore size (Expr.transform_reads hv)) (.setRegister (liftOperand_size hr) (.const _ _))
  | .fLoad size signed dst, b, h => by
    have hload : (⟨.load size (liftOperand .ea).expr, true⟩ : IlVal).Reads := liftOperand_reads .ea
    refine .assg rfl ?_ h
    split
    · exact .unop _ _ hload
    · exact hload
  | .fWriteFp a, b, h | .fWriteLr a, b, h | .fWriteSp a, b, h | .fSetLpcfg a, b, h | .fWriteP n a, b, h => by
    simp only [Stmt.transform, bind, Option.bind_eq_some_iff] at h
    obtain ⟨v, hv, h⟩ := h
    cases h
    exact .setRegister rfl (Expr.transform_reads hv)
  | .fWriteLoopRegs n start count, b, h => by
    simp only [Stmt.transform, bind, Option.bind_eq_some_iff] at h
    obtain ⟨v, hv, w, hw, h⟩ := h
    split at h <;> cases h
    · exact .append (.setRegister rfl (Expr.transform_reads hw)) (.setRegister rfl (Expr.transform_reads hv))
    · exact .append (.setRegister rfl (Expr.transform_reads hw)) (.setRegister rfl (Expr.transform_reads hv))
  | .fWriteLc n a, b, h => by
    simp only [Stmt.transform, bind, Option.bind_eq_some_iff] at h
    obtain ⟨v, hv, h⟩ := h
    split at h <;> cases h
    · exact .setRegister rfl (Expr.transform_reads hv)
    · exact .setRegister rfl (Expr.transform_reads hv)
  | .fSethalf n dst a, b, h | .fSetword n dst a, b, h => by
    simp only [Stmt.transform, bind, Option.bind_eq_some_iff] at h
    obtain ⟨v, hv, r, hr, h⟩ := h
    split at h <;> cases h
    refine .setRegister (liftOperand_size hr) (.binop _ _ (.binop _ _ (liftOperand_reads dst) ?_) ?_)
    · exact .unop _ _ (.binop _ _ (.const _ _) (.const _ _))
    · exact .binop _ _ (.binop _ _ (Expr.transform_reads hv) (.const _ _)) (.const _ _)

theorem processSemantics_sized {condJ : Bool} : ∀ {ps : List Stmt} {bs : List GBlock},
    processSemantics condJ ps = some bs → ∀ b ∈ bs, AllSized b
  | [], _, h, b, hb => by cases h; exact absurd hb List.not_mem_nil
  | p :: ps, _, h, b, hb => by
    simp only [processSemantics, bind, Option.bind_eq_some_iff] at h
    obtain ⟨c, hc, cs, hcs, h⟩ := h
    cases h
    rcases List.mem_cons.1 hb with rfl | hb
    · exact transform_sized hc
    · exact processSemantics_sized hcs b hb

/-- The block a lift function instantiates is one of the blocks of its opcode, or empty. -/
theorem Insn.semantics_mem (i : Insn) : i.semantics = .nil ∨ ∃ bs, i.opcode.gen = some bs ∧ i.semantics ∈ bs := by
  unfold Insn.semantics
  split
  · rename_i b h; exact .inr ⟨_, h, List.mem_cons_self⟩
  · rename_i b₁ b₂ h
    split
    · exact .inr ⟨_, h, List.mem_cons_self⟩
    · exact .inr ⟨_, h, List.mem_cons_of_mem _ List.mem_cons_self⟩
  · exact .inl rfl

theorem Insn.semantics_sized (i : Insn) : AllSized i.semantics := by
  rcases i.semantics_mem with h | ⟨bs, h, hb⟩
  · rw [h]; exact .nil
  · exact processSemantics_sized h _ hb

end Hex
