import BinjaHexagon.BranchTarget
import BinjaHexagon.TempVars
/-!
# IndirectDest — where an indirect branch goes

`fBRANCH` leaves the destination of an indirect branch in `BRANCHR_DEST`, by the type it is given; the tail reads it
there, by the attributes of the opcode.  What it reads is what the behaviour computed where the types are indirect, and
what the temporary held before the packet where `fJUMPR` has turned them into returns.
-/
namespace Hex

open Bytes (norm)
open Flow (Block Halts)

section Names

/-- The transformer's own variables are never read. -/
def IlVal.Named (v : IlVal) : Prop := ∀ q ∈ v.expr.reads, q.2.assignable = true

namespace IlVal

variable {v a b : IlVal}

theorem Named.register {size : Nat} {r : RegName} (h : r.assignable = true) : (register size r).Named :=
  fun q hq => by rw [List.mem_singleton.1 hq]; exact h

theorem Named.const (size n : Nat) : (const size n).Named := fun _ hq => absurd hq List.not_mem_nil

theorem Named.unop (o : IlUnop) (size : Nat) (h : a.Named) : (unop o size a).Named := h

theorem Named.binop (o : IlBinop) (size : Nat) (ha : a.Named) (hb : b.Named) : (binop o size a b).Named :=
  fun q hq => (List.mem_append.1 hq).elim (ha q) (hb q)

theorem Named.compare (o : IlCompare) (size : Nat) (ha : a.Named) (hb : b.Named) : (compare o size a b).Named :=
  fun q hq => (List.mem_append.1 hq).elim (ha q) (hb q)

end IlVal

open IlVal (Named)

theorem liftOperand_named (o : Operand) : (liftOperand o).Named := by
  cases o with
  | imm l => exact fun _ hq => absurd hq List.not_mem_nil
  | intcon n => exact .const _ _
  | tmp n => cases n <;> exact .register rfl
  | _ => exact .register rfl

theorem Macro0.transform_named {m : Macro0} {v : IlVal} (h : m.transform = some v) : v.Named := by
  cases m with
  | fFrameScramble =>
    cases h
    intro q hq
    rcases List.mem_cons.1 hq with rfl | hq
    · rfl
    · rw [List.mem_singleton.1 hq]; rfl
  | fReadPc => cases h; exact fun _ hq => absurd hq List.not_mem_nil
  | fReadGp => cases h; exact fun _ hq => absurd hq List.not_mem_nil
  | fReadLc n | fReadSa n => rcases n with _ | _ | n <;> cases h <;> exact .register rfl
  | _ => cases h; exact .register rfl

theorem getPart_named (part n : Nat) (s : Bool) {v : IlVal} (h : v.Named) : (getPart part n s v).Named := by
  unfold getPart
  simp only
  split
  · exact .unop _ _ h
  · exact .unop _ _ (.binop _ _ h (.const _ _))

theorem cast_named (size : Nat) (s : Bool) {v : IlVal} (h : v.Named) : (cast size s v).Named := by
  unfold cast
  split
  · exact .unop _ _ h
  · split
    · exact h
    · exact .unop _ _ h

theorem Macro1.transform_named {m : Macro1} {arg : Expr} {a v : IlVal} (ha : a.Named)
    (h : m.transform arg a = some v) : v.Named := by
  cases m with
  | fGetbyte n | fGetubyte n => cases h; exact getPart_named _ _ _ ha
  | fGethalf n | fGetuhalf n => cases h; exact .unop _ _ (getPart_named _ _ _ ha)
  | fGetword n | fGetuword n =>
    simp only [transform, Option.ite_none_right_eq_some, Option.some.injEq] at h
    rw [← h.2]
    exact .unop _ _ (getPart_named _ _ _ ha)
  | fCast4s | fCast4u => cases h; exact cast_named _ _ ha
  | fCast8s | fCast8u =>
    simp only [transform, Option.ite_none_right_eq_some, Option.some.injEq] at h
    rw [← h.2]
    exact cast_named _ _ ha
  | f8bitsof =>
    simp only [transform, Option.ite_none_right_eq_some, Option.some.injEq] at h
    rwa [← h.2]
  | fLsbold =>
    simp only [transform] at h
    split at h
    · split at h <;> cases h; exact ha
    · cases h
  | fLsbnew =>
    simp only [transform] at h
    split at h <;> cases h
    · exact .binop _ _ (.register rfl) (.const _ _)
    · exact .binop _ _ (.register rfl) (.const _ _)
    · exact .binop _ _ ha (.const _ _)
  | fNewreg | fNewregSt | fImmext =>
    simp only [transform] at h
    split at h <;> cases h
    exact ha
  | fAbs =>
    simp only [transform] at h
    split at h <;> cases h
    · exact .binop _ _ (.binop _ _ (.const _ _) (.binop _ _ (.const _ _) (.unop _ _ (.compare _ _ ha (.const _ _))))) ha
    · exact ha
  | fByteswap =>
    simp only [transform, Option.ite_none_right_eq_some, Option.some.injEq] at h
    rw [← h.2]
    have hb : ∀ (n : Nat), (IlVal.binop .and 4 a (.const 4 n)).Named := fun n => .binop _ _ ha (.const _ _)
    exact .binop _ _ (.binop _ _ (hb _) (.const _ _)) (.binop _ _ (.binop _ _ (hb _) (.const _ _))
      (.binop _ _ (.binop _ _ (hb _) (.const _ _)) (.binop _ _ (hb _) (.const _ _))))

theorem select_named (o o' : IlCompare) {a b : IlVal} (ha : a.Named) (hb : b.Named) : (select o o' a b).Named :=
  .binop _ _ (.binop _ _ (.unop _ _ (.compare _ _ ha hb)) ha) (.binop _ _ (.unop _ _ (.compare _ _ ha hb)) hb)

theorem Macro2.transform_named {m : Macro2} {a b v : IlVal} (ha : a.Named) (hb : b.Named)
    (h : m.transform a b = some v) : v.Named := by
  cases m with
  | fRotl4u | fRotl8u =>
    simp only [transform, Option.ite_none_right_eq_some, Option.some.injEq] at h
    rw [← h.2]
    exact .binop _ _ ha hb
  | fMax | fMin =>
    simp only [transform, Option.ite_none_right_eq_some, Option.some.injEq] at h
    rw [← h.2]
    split <;> exact select_named _ _ ha hb

/-- **No expression reads `BRANCHR_DEST` or `BRANCH_TAKEN`.** -/
theorem Expr.transform_named : ∀ {e : Expr} {v : IlVal}, e.transform = some v → v.Named
  | .operand o, v, h => by cases h; exact liftOperand_named o
  | .neg e, v, h | .not e, v, h | .bitNot e, v, h => by
    simp only [transform, bind, Option.bind_eq_some_iff] at h
    obtain ⟨a, ha, h⟩ := h
    cases h
    exact .unop _ _ (transform_named ha)
  | .binop o a b, v, h => by
    simp only [transform, bind, Option.bind_eq_some_iff] at h
    obtain ⟨x, hx, y, hy, h⟩ := h
    have hr : ∀ o' s, (IlVal.binop o' s x y).Named := fun o' s => .binop o' s (transform_named hx) (transform_named hy)
    cases o <;> cases h <;> exact hr _ _
  | .relop o a b, v, h => by
    simp only [transform, bind, Option.bind_eq_some_iff] at h
    obtain ⟨x, hx, y, hy, h⟩ := h
    cases h
    exact .compare _ _ (transform_named hx) (transform_named hy)
  | .call0 m, v, h => Macro0.transform_named h
  | .call1 m e, v, h => by
    simp only [transform, bind, Option.bind_eq_some_iff] at h
    obtain ⟨x, hx, h⟩ := h
    exact Macro1.transform_named (transform_named hx) h
  | .call2 m a b, v, h => by
    simp only [transform, bind, Option.bind_eq_some_iff] at h
    obtain ⟨x, hx, y, hy, h⟩ := h
    exact Macro2.transform_named (transform_named hx) (transform_named hy) h

end Names

/-- The types for which `fBRANCH` assigns `BRANCHR_DEST`. -/
def BranchType.setsDest : BranchType → Bool
  | .jumpr | .callr | .loopend0 | .loopend1 => true
  | .jump | .jumpnew | .call | .ret => false

/-- The types of the branch statements of a behaviour, as `macro_stmt_fBRANCH` is handed them. -/
def Stmt.branchTypes : Stmt → List BranchType
  | .seq s t => s.branchTypes ++ t.branchTypes
  | .ifThen _ t => t.branchTypes
  | .ifElse _ t f => t.branchTypes ++ f.branchTypes
  | .fBranch _ typ => [typ]
  | .fJumpr regno _ typ => [if regno = .operand .regLr then .ret else typ]
  | _ => []

/-- Every way through the behaviour comes to a branch statement. -/
def Stmt.alwaysBranches : Stmt → Bool
  | .seq s t => s.alwaysBranches || t.alwaysBranches
  | .ifElse _ t f => t.alwaysBranches && f.alwaysBranches
  | .fBranch _ _ | .fJumpr _ _ _ => true
  | _ => false

/-- The rows of indirect branches, all of whose types assign `BRANCHR_DEST` or none of whose do; only a conditional one
can go by its branch statements. -/
structure IndirectRow (sets : Bool) (o : OpcodeRow) : Prop where
  supported : o.supported = true
  types : ∀ p ∈ o.parts, ∀ typ ∈ p.branchTypes, typ.setsDest = sets
  always : o.attrib .bnCondJ = false → ∀ p ∈ o.parts, p.alwaysBranches = true

/-- What the `BRANCHR_DEST` of instruction `n` holds. -/
def branchrDest (n : Nat) (s : PhysState) : BitVec 64 := s.get 4 (.temp (Temp.branchrDest n).index)

/-- Where a branch statement goes. -/
def LiftAct.location (s : PhysState) : LiftAct → Option (BitVec 64)
  | .branch _ d => some (norm 4 ((d.map LReg.index).eval s))
  | .il _ => none

/-- Where the branch statement goes that was executed last. -/
abbrev lastLocation : BodyLog → Option (BitVec 64) := Block.lastMark LiftAct.location

/-- What the behaviour leaves in `BRANCHR_DEST`, for rows that assign it and for rows that do not. -/
def LiftAct.latched (sets : Bool) (s : PhysState) (a : LiftAct) : Option (BitVec 64) :=
  if sets then a.location s else none

section Behaviour

variable {n : Nat} {sets : Bool}

theorem branchrDest_congr {s s' : PhysState}
    (h : s'.temp (Temp.branchrDest n).index = s.temp (Temp.branchrDest n).index) :
        branchrDest n s' = branchrDest n s := by
  simp only [branchrDest, State.get, h]

theorem branchrDest_exec {x : LInsn Temp} (h : ∀ d ∈ x.dests, ∀ t, d.2 = .temp t → t.index ≠ (Temp.branchrDest n).index)
    (s : PhysState) : branchrDest n (bodySem.exec (.il x) s) = branchrDest n s :=
  branchrDest_congr (exec_temp_of_index (fun y hy d hd t ht => by cases hy; exact h d hd t ht) s)

theorem index_branchrDest_ne {k : Nat} (h : k < 200) : k ≠ (Temp.branchrDest n).index := by
  simp only [Temp.index]
  omega

/-- What `macro_stmt_fBRANCH` returns ends with the branch. -/
theorem macroBranch_mark {condJ : Bool} {loc : IlVal} {typ : BranchType} {b : GBlock}
    (h : macroBranch condJ loc typ = some b) : ∃ pre k, b = pre ++ .act (.branch k loc.expr) .nil := by
  cases typ with
  | jump | jumpnew | jumpr | call | callr | ret => cases h; exact ⟨_, _, rfl⟩
  | loopend0 | loopend1 =>
    simp only [macroBranch, Option.ite_none_right_eq_some, Option.some.injEq] at h
    exact ⟨_, _, h.2.symm⟩

variable (E : LiftEnv) (henv : ∀ p ∈ E.regs, p.2.Operand)

include henv

/-- Where a branch goes does not depend on what `BRANCHR_DEST` holds. -/
theorem eval_setDest (imms : ImmLetter → BitVec 32) {v : IlVal} (hv : v.Named) (w : BitVec 64) (s : PhysState) :
    ((E.expr imms v.expr).map LReg.index).eval (s.setTemp 4 (Temp.branchrDest E.insnNum).index w) =
      ((E.expr imms v.expr).map LReg.index).eval s := by
  have hbelow : ∀ s' : PhysState, s'.reg = s.reg → s'.mem = s.mem → (∀ k < 200, s'.temp k = s.temp k) →
      ((E.expr imms v.expr).map LReg.index).eval s' = (E.expr imms v.expr).eval ⟨s.reg, fun t => s.temp t.index,
          s.mem⟩ := by
    intro s' hreg hmem htemp
    refine IlExpr.eval_agree hreg hmem fun q hq t ht k _ => ?_
    rcases reads_subst (gp_reads E.extensionValid) hq with h | ⟨p, hp, rfl⟩
    · exact absurd ht (h t)
    · rw [htemp _ (resolveReg_operand henv _ (hv p hp) ht)]
  rw [hbelow s rfl rfl fun _ _ => rfl]
  exact hbelow _ rfl rfl fun k hk => State.setTemp_temp_ne _ _ _ (index_branchrDest_ne hk)

theorem macroBranch_latches {condJ : Bool} {loc : IlVal} {typ : BranchType} {b : GBlock}
    (h : macroBranch condJ loc typ = some b) (ht : typ.setsDest = sets) (hv : loc.Named)
      (imms : ImmLetter → BitVec 32) :
    Block.Latches bodySem (branchrDest E.insnNum) (LiftAct.latched sets) (b.instantiate E.item E.expr imms).2 := by
  have htaken : ∀ imms, Block.Latches bodySem (branchrDest E.insnNum) (LiftAct.latched sets)
      ((if condJ then setRegister 1 .branchTaken (.const 1 1) else .nil : GBlock).instantiate E.item E.expr
          imms).2 := by
    intro imms
    cases condJ with
    | false => exact .nil
    | true =>
      refine .act (fun s => by cases sets <;> rfl) (branchrDest_exec fun d hd t ht => ?_)
      rw [List.mem_singleton.1 hd] at ht
      cases ht
      simp only [Temp.index]
      omega
  have hmark : ∀ k imms, Block.Latches bodySem (branchrDest E.insnNum) (LiftAct.latched false)
      ((.act (.branch k loc.expr) .nil : GBlock).instantiate E.item E.expr imms).2 :=
    fun k imms => .act (fun _ => rfl) fun _ => rfl
  have hdest : ∀ k imms, Block.Latches bodySem (branchrDest E.insnNum) (LiftAct.latched true)
      ((setRegister 4 .branchrDest loc ++ .act (.branch k loc.expr) .nil : GBlock).instantiate E.item E.expr
          imms).2 := by
    intro k imms s
    have hval := eval_setDest E henv imms hv (((E.expr imms loc.expr).map LReg.index).eval s) s
    change branchrDest E.insnNum (s.setTemp 4 (Temp.branchrDest E.insnNum).index
      (((E.expr imms loc.expr).map LReg.index).eval s)) = norm 4 (((E.expr imms loc.expr).map LReg.index).eval
        (s.setTemp 4 (Temp.branchrDest E.insnNum).index (((E.expr imms loc.expr).map LReg.index).eval s)))
    rw [hval]
    exact State.get_setTemp_same _ _ _ _ (by decide)
  cases typ with
  | jump | jumpnew | call | ret =>
    cases ht
    cases h
    rw [Block.instantiate_append]
    exact (htaken _).append (hmark _ _)
  | jumpr | callr =>
    cases ht
    cases h
    rw [Block.append_assoc, Block.instantiate_append]
    exact (htaken _).append (hdest _ _)
  | loopend0 | loopend1 =>
    cases ht
    simp only [macroBranch, Option.ite_none_right_eq_some, Option.some.injEq] at h
    rw [← h.2, Block.append_assoc, Block.instantiate_append]
    exact (htaken _).append (hdest _ _)

/-- A block without branch statements leaves `BRANCHR_DEST` alone. -/
theorem Shape.latches {condJ : Bool} {b : GBlock} (h : Shape condJ b) : (∀ k d, GenItem.branch k d ∉ b.acts) → ∀ imms,
    Block.Latches bodySem (branchrDest E.insnNum) (LiftAct.latched sets) (b.instantiate E.item E.expr imms).2 := by
  induction h with
  | nil => exact fun _ _ => .nil
  | pcalign l => exact fun _ _ => .nil
  | insn i hi =>
    intro _ imms
    refine .act (fun s => by cases sets <;> rfl) (branchrDest_exec fun d hd t ht => ?_)
    rw [LiftEnv.insn, IlInsn.dests_subst, List.mem_map] at hd
    obtain ⟨e, he, rfl⟩ := hd
    exact index_branchrDest_ne (resolveReg_operand henv _ (hi e he) ht)
  | branch loc typ b hb =>
    intro hno
    obtain ⟨pre, k, rfl⟩ := macroBranch_mark hb
    rw [Block.acts_append] at hno
    exact absurd (List.mem_append_right _ List.mem_cons_self) (hno k loc.expr)
  | append hb hk ihb ihk =>
    intro hno imms
    rw [Block.acts_append] at hno
    rw [Block.instantiate_append]
    exact (ihb (fun k d hd => hno k d (List.mem_append_left _ hd)) imms).append
      (ihk (fun k d hd => hno k d (List.mem_append_right _ hd)) _)
  | ifThen c ht ih =>
    exact fun hno imms => .ifThen (ih (fun k d hd => hno k d (List.mem_append_left _ hd)) imms)
  | ifElse c ht hf iht ihf =>
    exact fun hno imms => .ifElse (iht (fun k d hd => hno k d (List.mem_append_left _ hd)) imms)
      (ihf (fun k d hd => hno k d (List.mem_append_right _ (List.mem_append_left _ hd))) _)

omit henv in
/-- A condition does not matter to what its branches keep. -/
theorem ifStmt_latches {c : GExpr} {t f : GBlock} (ht : ∀ imms, Block.Latches bodySem (branchrDest E.insnNum)
      (LiftAct.latched sets) (t.instantiate E.item E.expr imms).2)
    (hf : ∀ imms, Block.Latches bodySem (branchrDest E.insnNum) (LiftAct.latched sets)
      (f.instantiate E.item E.expr imms).2) (imms : ImmLetter → BitVec 32) :
    Block.Latches bodySem (branchrDest E.insnNum) (LiftAct.latched sets)
      ((ifStmt c t f).instantiate E.item E.expr imms).2 := by
  cases f with
  | nil => exact .ifThen (ht _)
  | act a r => exact .ifElse (ht _) (hf _)
  | ifThen e u r => exact .ifElse (ht _) (hf _)
  | ifElse e u w r => exact .ifElse (ht _) (hf _)

end Behaviour

theorem setRegister_no_branch {size : Nat} {r : RegName} {v : IlVal} {k : BranchKind} {d : GExpr} :
    GenItem.branch k d ∉ (setRegister size r v).acts := fun h => by cases List.mem_singleton.1 h

theorem assg_no_branch {lv v : IlVal} {b : GBlock} (h : assg lv v = some b) {k : BranchKind} {d : GExpr} :
    GenItem.branch k d ∉ b.acts := by
  simp only [assg, bind, Option.bind_eq_some_iff] at h
  obtain ⟨r, -, h⟩ := h
  cases h
  exact setRegister_no_branch

/-- Only `fBRANCH` and `fJUMPR` make branch statements. -/
theorem leaf_no_branch {condJ : Bool} {s : Stmt} {b : GBlock} (h : s.transform condJ = some b)
    (hleaf : match s with
      | .seq _ _ | .ifThen _ _ | .ifElse _ _ _ | .fBranch _ _ | .fJumpr _ _ _ => False
      | _ => True) (k : BranchKind) (d : GExpr) : GenItem.branch k d ∉ b.acts := by
  cases s with
  | seq | ifThen | ifElse | fBranch | fJumpr => exact hleaf.elim
  | skip | fImmext => cases h; exact List.not_mem_nil
  | fPcalign | fTrap | fBreak => cases h; exact fun h => by cases List.mem_singleton.1 h
  | assg | assgBinop =>
    simp only [Stmt.transform, bind, Option.bind_eq_some_iff] at h
    obtain ⟨v, -, h⟩ := h
    exact assg_no_branch h
  | fLoad => exact assg_no_branch h
  | fStore =>
    simp only [Stmt.transform, bind, Option.bind_eq_some_iff] at h
    obtain ⟨v, -, h⟩ := h
    cases h
    exact fun h => by cases List.mem_singleton.1 h
  | fStoreLocked =>
    simp only [Stmt.transform, bind, Option.bind_eq_some_iff] at h
    obtain ⟨v, -, r, -, h⟩ := h
    cases h
    rw [Block.acts_append]
    exact fun h => (List.mem_append.1 h).elim (fun h => by cases List.mem_singleton.1 h) setRegister_no_branch
  | fWriteFp | fWriteLr | fWriteSp | fSetLpcfg | fWriteP =>
    simp only [Stmt.transform, bind, Option.bind_eq_some_iff] at h
    obtain ⟨v, -, h⟩ := h
    cases h
    exact setRegister_no_branch
  | fWriteLoopRegs =>
    simp only [Stmt.transform, bind, Option.bind_eq_some_iff] at h
    obtain ⟨v, -, w, -, h⟩ := h
    split at h <;> cases h
    all_goals
      rw [Block.acts_append]
      exact fun h => (List.mem_append.1 h).elim setRegister_no_branch setRegister_no_branch
  | fWriteLc =>
    simp only [Stmt.transform, bind, Option.bind_eq_some_iff] at h
    obtain ⟨v, -, h⟩ := h
    split at h <;> cases h <;> exact setRegister_no_branch
  | fSethalf | fSetword =>
    simp only [Stmt.transform, bind, Option.bind_eq_some_iff] at h
    obtain ⟨v, -, r, -, h⟩ := h
    split at h <;> cases h
    exact setRegister_no_branch

/-- **A behaviour whose branch types agree latches its destination, or leaves it alone.** -/
theorem transform_latches (E : LiftEnv) (henv : ∀ p ∈ E.regs, p.2.Operand) {condJ sets : Bool} :
    ∀ {s : Stmt} {b : GBlock}, s.transform condJ = some b → (∀ typ ∈ s.branchTypes, typ.setsDest = sets) → ∀ imms,
      Block.Latches bodySem (branchrDest E.insnNum) (LiftAct.latched sets) (b.instantiate E.item E.expr imms).2
  | .seq s t, b, h, ht, imms => by
    simp only [Stmt.transform, bind, Option.bind_eq_some_iff] at h
    obtain ⟨bs, hs, bt, htt, h⟩ := h
    cases h
    rw [Block.instantiate_append]
    exact (transform_latches E henv hs (fun typ hx => ht typ (List.mem_append_left _ hx)) imms).append
      (transform_latches E henv htt (fun typ hx => ht typ (List.mem_append_right _ hx)) _)
  | .ifThen c t, b, h, ht, imms => by
    simp only [Stmt.transform, bind, Option.bind_eq_some_iff] at h
    obtain ⟨v, -, bt, htt, h⟩ := h
    split at h
    · cases h
    · cases h
      exact ifStmt_latches E (transform_latches E henv htt ht) (fun _ => .nil) imms
  | .ifElse c t f, b, h, ht, imms => by
    simp only [Stmt.transform, bind, Option.bind_eq_some_iff] at h
    obtain ⟨v, -, bt, htt, bf, hff, h⟩ := h
    split at h
    · cases h
    · cases h
      exact ifStmt_latches E (transform_latches E henv htt fun typ hx => ht typ (List.mem_append_left _ hx))
        (transform_latches E henv hff fun typ hx => ht typ (List.mem_append_right _ hx)) imms
  | .fBranch loc typ, b, h, ht, imms => by
    simp only [Stmt.transform, bind, Option.bind_eq_some_iff] at h
    obtain ⟨v, hv, h⟩ := h
    exact macroBranch_latches E henv h (ht _ List.mem_cons_self) (Expr.transform_named hv) imms
  | .fJumpr regno loc typ, b, h, ht, imms => by
    simp only [Stmt.transform, bind, Option.bind_eq_some_iff] at h
    obtain ⟨v, hv, h⟩ := h
    exact macroBranch_latches E henv h (ht _ List.mem_cons_self) (Expr.transform_named hv) imms
  | .skip, b, h, _, imms | .assg _ _, b, h, _, imms | .assgBinop _ _ _, b, h, _, imms | .fImmext _, b, h, _, imms
  | .fPcalign _, b, h, _, imms | .fTrap, b, h, _, imms | .fBreak, b, h, _, imms | .fStore _ _, b, h, _, imms
  | .fStoreLocked _ _ _, b, h, _, imms | .fLoad _ _ _, b, h, _, imms | .fWriteFp _, b, h, _, imms
  | .fWriteLr _, b, h, _, imms | .fWriteSp _, b, h, _, imms | .fWriteP _ _, b, h, _, imms
  | .fWriteLoopRegs _ _ _, b, h, _, imms | .fSetLpcfg _, b, h, _, imms | .fWriteLc _ _, b, h, _, imms
  | .fSethalf _ _ _, b, h, _, imms | .fSetword _ _ _, b, h, _, imms =>
    (transform_shape h).latches E henv (leaf_no_branch h trivial) imms

/-- Where every way through a behaviour comes to a branch statement, its log has one. -/
theorem transform_branches (E : LiftEnv) {condJ : Bool} : ∀ {s : Stmt} {b : GBlock}, s.transform condJ = some b →
    s.alwaysBranches = true → ∀ imms (σ : PhysState),
      (lastLocation ((b.instantiate E.item E.expr imms).2.log bodySem σ)).isSome = true
  | .seq s t, b, h, ha, imms, σ => by
    simp only [Stmt.transform, bind, Option.bind_eq_some_iff] at h
    obtain ⟨bs, hs, bt, htt, h⟩ := h
    cases h
    rw [Block.instantiate_append, Block.log_append, lastLocation, Block.lastMark_append, Option.isSome_or]
    rw [Stmt.alwaysBranches, Bool.or_eq_true] at ha
    rcases ha with ha | ha
    · rw [transform_branches E hs ha, Bool.or_true]
    · rw [transform_branches E htt ha, Bool.true_or]
  | .ifElse c t f, b, h, ha, imms, σ => by
    simp only [Stmt.transform, bind, Option.bind_eq_some_iff] at h
    obtain ⟨v, -, bt, htt, bf, hff, h⟩ := h
    rw [Stmt.alwaysBranches, Bool.and_eq_true] at ha
    have helse : (lastLocation
        (((Block.ifElse v.expr bt bf .nil).instantiate E.item E.expr imms).2.log bodySem σ)).isSome = true := by
      simp only [Block.instantiate, Block.log, List.append_nil, lastLocation, Block.lastMark_test]
      split
      · exact transform_branches E htt ha.1 _ _
      · exact transform_branches E hff ha.2 _ _
    split at h
    · cases h
    · cases h
      cases bf with
      | nil => exact absurd (transform_branches E hff ha.2 imms σ) Bool.false_ne_true
      | act a r => exact helse
      | ifThen e u r => exact helse
      | ifElse e u w r => exact helse
  | .fBranch loc typ, b, h, _, imms, σ | .fJumpr regno loc typ, b, h, _, imms, σ => by
    simp only [Stmt.transform, bind, Option.bind_eq_some_iff] at h
    obtain ⟨v, -, h⟩ := h
    obtain ⟨pre, k, rfl⟩ := macroBranch_mark h
    rw [Block.instantiate_append, Block.log_append, lastLocation, Block.lastMark_append]
    rfl

section Lift

variable {pc : BitVec 64} {i : Insn} {n : Nat} {ctx : PacketContext} {sets : Bool}

theorem processSemantics_parts {condJ : Bool} : ∀ {ps : List Stmt} {bs : List GBlock},
    processSemantics condJ ps = some bs → bs.length = ps.length ∧ ∀ b ∈ bs, ∃ p ∈ ps, p.transform condJ = some b
  | [], _, h => by cases h; exact ⟨rfl, fun b hb => absurd hb List.not_mem_nil⟩
  | p :: ps, _, h => by
    simp only [processSemantics, bind, Option.bind_eq_some_iff] at h
    obtain ⟨c, hc, cs, hcs, h⟩ := h
    cases h
    obtain ⟨hlen, hmem⟩ := processSemantics_parts hcs
    refine ⟨congrArg (· + 1) hlen, fun b hb => ?_⟩
    rcases List.mem_cons.1 hb with rfl | hb
    · exact ⟨p, List.mem_cons_self, hc⟩
    · obtain ⟨q, hq, hqt⟩ := hmem b hb
      exact ⟨q, List.mem_cons_of_mem _ hq, hqt⟩

/-- What a supported instruction does is one part of its row, transformed. -/
theorem Insn.semantics_part (hs : i.opcode.supported = true) :
    ∃ p ∈ i.opcode.parts, p.transform i.isCondJump = some i.semantics := by
  have hgen := i.opcode.generated hs
  simp only [OpcodeRow.generates, Bool.and_eq_true, beq_iff_eq] at hgen
  obtain ⟨⟨hsome, -⟩, hlen⟩ := hgen
  obtain ⟨bs, hbs⟩ := Option.isSome_iff_exists.1 hsome
  obtain ⟨hlen', hmem⟩ := processSemantics_parts hbs
  rw [← hlen'] at hlen
  have hin : i.semantics ∈ bs := by
    rw [Insn.semantics, hbs]
    cases bs with
    | nil => split at hlen <;> cases hlen
    | cons b bs =>
      cases bs with
      | nil => exact List.mem_cons_self
      | cons b' bs =>
        cases bs with
        | nil =>
          dsimp only
          split
          · exact List.mem_cons_self
          · exact List.mem_cons_of_mem _ List.mem_cons_self
        | cons b'' bs =>
          simp only [List.length_cons] at hlen
          split at hlen <;> omega
  exact hmem _ hin

theorem lift_latches (h : IndirectRow sets i.opcode.toOpcodeRow) :
    Block.Latches bodySem (branchrDest n) (LiftAct.latched sets) (lift pc i n ctx).block := by
  have ok := i.declared_ok ctx
  obtain ⟨p, hp, htr⟩ := Insn.semantics_part h.supported
  rw [lift, if_pos h.supported]
  refine (Block.Latches.ofList fun a ha => ?_).append
    (transform_latches ⟨(i.declared ctx).env, n, pc, i.extensionValid⟩ ok.env htr (h.types p hp) i.immEnv)
  obtain ⟨c, hc, rfl⟩ := List.mem_map.1 ha
  refine ⟨fun s => by cases sets <;> rfl, branchrDest_exec fun d hd t ht => index_branchrDest_ne ?_⟩
  have := ok.code c hc d hd
  rw [ht] at this
  exact this.index_lt

theorem lift_branches (h : IndirectRow sets i.opcode.toOpcodeRow) (hc : i.isCondJump = false) (s : PhysState) :
    (lastLocation ((lift pc i n ctx).block.log bodySem s)).isSome = true := by
  obtain ⟨p, hp, htr⟩ := Insn.semantics_part h.supported
  rw [lift, if_pos h.supported, Lifted.block, Block.log_append, lastLocation, Block.lastMark_append, Option.isSome_or]
  exact Bool.or_eq_true_iff.2 (.inl (transform_branches ⟨(i.declared ctx).env, n, pc, i.extensionValid⟩ htr
    (h.always hc p hp) i.immEnv _))

/-- Instruction `m` does not touch the `BRANCHR_DEST` of another instruction. -/
theorem lift_keeps_dest {m : Nat} (hm : m < 10) (hn : n < 10) (hmn : m ≠ n) (s : PhysState) :
    branchrDest n ((lift pc i m ctx).block.run bodySem s) = branchrDest n s := by
  refine Block.run_induction bodySem (fun s' => branchrDest n s' = branchrDest n s) _ (fun a ha s' hs' => ?_) s rfl
  rw [← hs']
  refine branchrDest_congr (exec_temp_of_index (fun x hx d hd t ht => ?_) s')
  subst hx
  rcases lift_dests ha hd ht with h | rfl | ⟨rfl, -, -⟩
  · exact index_branchrDest_ne h
  · simp only [Temp.index]; omega
  · simp only [Temp.index]; omega

/-- A behaviour reached a branch statement if its log has a location. -/
theorem reachedBranch_iff (l : BodyLog) : reachedBranch l = true ↔ (lastLocation l).isSome = true := by
  rw [reachedBranch, List.any_eq_true, lastLocation, Block.lastMark, List.getLast?_isSome]
  constructor
  · rintro ⟨⟨s, e⟩, he, hb⟩
    cases e with
    | inr c => cases hb
    | inl a =>
      cases a with
      | il x => cases hb
      | branch k d => exact List.ne_nil_of_mem (List.mem_filterMap.2 ⟨_, he, rfl⟩)
  · intro h
    obtain ⟨v, hv⟩ := List.exists_mem_of_ne_nil _ h
    obtain ⟨⟨s, e⟩, he, hv⟩ := List.mem_filterMap.1 hv
    refine ⟨(s, e), he, ?_⟩
    cases e with
    | inr c => cases hv
    | inl a =>
      cases a with
      | il x => cases hv
      | branch k d => rfl

end Lift

section Packet

variable {pc : BitVec 64} {sets : Bool}

theorem body_keeps_dest : ∀ {is : List Insn} {n m : Nat} {ctx : PacketContext} (s : PhysState), m < n →
    n + is.length ≤ 10 → branchrDest m ((packetBody (liftInsns pc n is ctx)).run bodySem s) = branchrDest m s
  | [], _, _, _, _, _, _ => rfl
  | i :: is, n, m, ctx, s, hm, hn => by
    rw [List.length_cons] at hn
    rw [liftInsns, run_packetBody_cons, body_keeps_dest _ (by omega) (by omega),
      lift_keeps_dest (by omega) (by omega) (by omega)]

variable (pc) in
/-- What an indirect branch leaves in its `BRANCHR_DEST` is there behind the last instruction, and it has come to a
branch statement if it is unconditional. -/
theorem dest_body : ∀ {is : List Insn} (n : Nat) {k : Nat} (ctx : PacketContext) {i : Insn} (s : PhysState),
    n + is.length ≤ 10 → is[k]? = some i → IndirectRow sets i.opcode.toOpcodeRow →
      branchrDest (n + k) ((packetBody (liftInsns pc n is ctx)).run bodySem s) =
          (Block.lastMark (LiftAct.latched sets) ((insnLogs (liftInsns pc n is ctx) s).getD k [])).getD
            (branchrDest (n + k) s) ∧
        (i.isCondJump = false → (lastLocation ((insnLogs (liftInsns pc n is ctx) s).getD k [])).isSome = true)
  | [], _, _, _, _, _, _, h, _ => by cases h
  | j :: is, n, 0, ctx, i, s, hn, h, hrow => by
    obtain rfl : j = i := by simpa using h
    rw [List.length_cons] at hn
    rw [liftInsns, run_packetBody_cons, body_keeps_dest _ (by omega) (by omega), Nat.add_zero, lift_latches hrow,
      insnLogs]
    exact ⟨rfl, fun hc => lift_branches hrow hc s⟩
  | j :: is, n, k + 1, ctx, i, s, hn, h, hrow => by
    rw [List.length_cons] at hn
    have hk : is[k]? = some i := by simpa using h
    have hlt := (List.getElem?_eq_some_iff.1 hk).1
    obtain ⟨hdest, hbr⟩ := dest_body (n + 1) (lift pc j n ctx).ctx ((lift pc j n ctx).block.run bodySem s)
      (by omega) hk hrow
    rw [liftInsns, run_packetBody_cons, show n + (k + 1) = n + 1 + k by omega, hdest, insnLogs,
      lift_keeps_dest (by omega) (by omega) (by omega)]
    exact ⟨rfl, hbr⟩

theorem dest_execAll_clear : ∀ (is : List Insn) (m n : Nat) (s : PhysState), n < 10 →
    branchrDest n (execAll (clearTaken m is) s) = branchrDest n s
  | [], _, _, _, _ => rfl
  | i :: is, m, n, s, hn => by
    unfold clearTaken
    split
    · rw [execAll, List.foldl_cons, ← execAll, dest_execAll_clear is _ _ _ hn]
      refine branchrDest_congr (IlInsn.exec_temp (fun d hd => ?_) s)
      rw [List.mem_singleton.1 hd]
      simp only [Temp.index, ne_eq, LReg.temp.injEq]
      omega
    · exact dest_execAll_clear is _ _ _ hn

theorem dest_initFlags (cof : Bool) (is : List Insn) {n : Nat} (hn : n < 10) (s : PhysState) :
    branchrDest n (execAll (initFlags cof is) s) = branchrDest n s := by
  cases cof with
  | false => rfl
  | true => exact dest_execAll_clear is 0 n s hn

/-- The emitted function leaves by the transfer `c`, and goes to `a`. -/
def LeavesBy (callee : BitVec 64 → PhysState → PhysState) (code : List EmitInstr) (s : PhysState) (c : Control)
    (a : BitVec 64) : Prop :=
  ∃ fin : EmitCfg, Halts (emitSem callee) code ⟨0, s, []⟩ fin ∧
    match c with
    | .jump d => code[fin.pc]? = some (.exit (.jump d)) ∧ d.eval fin.st = a
    | .ret d => code[fin.pc]? = some (.exit (.ret d)) ∧ d.eval fin.st = a
    | .call d => ∃ t, (t, .inl (.call d)) ∈ fin.log ∧ d.eval t = a

/-- The branch that is due when the emitted function of a prepared packet runs from `s`. -/
def dueBranch (pc : BitVec 64) (p : Decoded) (is : List Insn) (s : PhysState) : Option (Nat × Insn) :=
  firstDue (fun m => reachedBranch
    ((insnLogs (liftInsns pc 0 is .empty) (execAll (initFlags (hasCof p.insn) is) s)).getD m [])) 0 is

theorem firstDue_due {due : Nat → Bool} : ∀ {is : List Insn} {n m : Nat} {i : Insn}, firstDue due n is = some (m, i) →
    ∃ k, m = n + k ∧ is[k]? = some i ∧ i.branches = true ∧ (i.isCondJump = true → due m = true)
  | [], _, _, _, h => by cases h
  | j :: is, n, m, i, h => by
    unfold firstDue at h
    split at h
    · rename_i hd
      cases h
      obtain ⟨hb, hd⟩ := Bool.and_eq_true_iff.1 hd
      exact ⟨0, rfl, rfl, hb, fun hc => by simpa [hc] using hd⟩
    · obtain ⟨k, rfl, hk, hd⟩ := firstDue_due h
      exact ⟨k + 1, by omega, by simpa using hk, hd⟩

/-- The function leaves by the branch that is due, to what its destination is after write-back. -/
theorem leavesBy_due {p : Decoded} {is : List Insn} (hprep : preparePacketForLifting p.insn = some is) (h : HashOrder)
    (callee : BitVec 64 → PhysState → PhysState) {s : PhysState} {n : Nat} {i : Insn}
    (hdue : dueBranch pc p is s = some (n, i)) :
    LeavesBy callee (fillBnInstructionLowLevelIl h pc (hasCof p.insn) is) s (i.control pc n)
      ((i.control pc n).dest.eval (packetState h pc is (execAll (initFlags (hasCof p.insn) is) s))) := by
  have hres : ResolvesBranches h pc callee (hasCof p.insn) is s := by
    cases hcof : hasCof p.insn with
    | false => exact resolves_of_no_branch h callee is s (branches_of_hasCof hprep hcof)
    | true => exact resolves_of_cof h callee is s ((length_preparePacket hprep).trans (by decide))
  obtain ⟨fin, before, written, tests, hfin, hlog, -, -, -, hst, hends⟩ := hres
  refine ⟨fin, hfin, ?_⟩
  rw [show firstDue _ 0 is = some (n, i) from hdue, Option.map_some] at hlog hst hends
  generalize i.control pc n = c at hlog hst hends ⊢
  cases c with
  | jump d => exact ⟨hends, congrArg d.eval hst⟩
  | ret d => exact ⟨hends, congrArg d.eval hst⟩
  | call d =>
    refine ⟨_, ?_, rfl⟩
    rw [hlog]
    exact List.mem_append_right _ List.mem_cons_self

end Packet

theorem lastMark_latched_true (l : BodyLog) : Block.lastMark (LiftAct.latched true) l = lastLocation l := rfl

theorem lastMark_latched_false (l : BodyLog) : Block.lastMark (LiftAct.latched false) l = none := by
  have hnil : l.filterMap (fun e => e.2.elim (LiftAct.latched false e.1) fun _ => none) = [] := by
    refine List.filterMap_eq_nil_iff.2 fun e _ => ?_
    cases e.2 <;> rfl
  rw [Block.lastMark, hnil, List.getLast?_nil]

/-- A register-indirect branch that is not lifted to a return is made through `BRANCHR_DEST`. -/
theorem control_indirect {i : Insn} {pc : BitVec 64} {n : Nat} (hind : i.isIndirect = true) (hret : i.isReturn = false)
    (hlr : ¬ (i.opcode.tag = .j2Jumpr ∧ i.reg 0 = hexRegLr)) (hbr : i.branches = true) :
    (i.control pc n).dest = .register 4 (.temp (Temp.branchrDest n).index) := by
  have hno : (i.opcode.tag == .j2Jumpr && i.reg 0 == hexRegLr) = false := by
    simpa using hlr
  simp only [Insn.branches, Bool.and_eq_true, Bool.or_eq_true] at hbr
  unfold Insn.control
  rw [hind, hret, hno]
  cases hj : i.isJump with
  | true => rfl
  | false => rw [hbr.2.resolve_left (by rw [hj]; exact Bool.false_ne_true)]; rfl

/-- **Where an indirect branch goes.**  Leaving by a register-indirect jump or call that is lifted as such, the IL goes
to where the behaviour's last branch statement goes if the types are indirect, and to what `BRANCHR_DEST` held before
the packet if they are not. -/
theorem indirect_dest (p : Decoded) (is : List Insn) (hprep : preparePacketForLifting p.insn = some is) (pc : BitVec 64)
    (s : PhysState) (n : Nat) (i : Insn) (hdue : dueBranch pc p is s = some (n, i)) (sets : Bool)
    (hrow : IndirectRow sets i.opcode.toOpcodeRow) (hind : i.isIndirect = true) (hret : i.isReturn = false)
    (hlr : ¬ (i.opcode.tag = .j2Jumpr ∧ i.reg 0 = hexRegLr)) (h : HashOrder)
    (callee : BitVec 64 → PhysState → PhysState) :
    ∃ a, lastLocation ((insnLogs (liftInsns pc 0 is .empty) (execAll (initFlags (hasCof p.insn) is) s)).getD n []) =
      some a ∧ LeavesBy callee (fillBnInstructionLowLevelIl h pc (hasCof p.insn) is) s (i.control pc n)
        (if sets then a else branchrDest n s) := by
  obtain ⟨k, hk, hget, hbr, hcond⟩ := firstDue_due hdue
  rw [Nat.zero_add] at hk
  subst hk
  have hlen : is.length ≤ 7 := length_preparePacket hprep
  have hlt : n < 10 := by have := (List.getElem?_eq_some_iff.1 hget).1; omega
  obtain ⟨hdest, hun⟩ := dest_body pc 0 .empty (execAll (initFlags (hasCof p.insn) is) s) (by omega) hget hrow
  rw [Nat.zero_add] at hdest
  have hloc : (lastLocation ((insnLogs (liftInsns pc 0 is .empty) (execAll (initFlags (hasCof p.insn) is) s)).getD n
      [])).isSome = true := by
    cases hc : i.isCondJump with
    | false => exact hun hc
    | true => exact (reachedBranch_iff _).1 (hcond hc)
  obtain ⟨a, ha⟩ := Option.isSome_iff_exists.1 hloc
  refine ⟨a, ha, ?_⟩
  have hleaves := leavesBy_due hprep h callee hdue
  have hval : (i.control pc n).dest.eval (packetState h pc is (execAll (initFlags (hasCof p.insn) is) s)) =
      if sets then a else branchrDest n s := by
    rw [control_indirect hind hret hlr hbr]
    refine (branchrDest_congr (congrFun (temp_execAll_writeBack h _ _) _)).trans (hdest.trans ?_)
    cases sets with
    | false => rw [lastMark_latched_false, Option.getD_none, dest_initFlags _ _ hlt]; rfl
    | true => rw [lastMark_latched_true, ha]; rfl
  rw [← hval]
  exact hleaves

theorem jumpr_fits : ∀ d ∈ Opcodes.j2Jumpr.regs.zipIdx, [3].getD d.2 0 < d.1.limit := by
  decide

theorem returnT_fits : ∀ d ∈ Opcodes.l4ReturnT.regs.zipIdx, [0, 30, 30].getD d.2 0 < d.1.limit := by
  decide

/-- `{ jumpr r3 }`. -/
def jumprPacket : Decoded where
  insn := [Opcodes.j2Jumpr.insn [3] [] jumpr_fits]
  part1 := by simp [Opcode.insn]
  endloop := by simp

/-- `{ if (p0) r31:30 = dealloc_return(r30) }`. -/
def returnTPacket : Decoded where
  insn := [Opcodes.l4ReturnT.insn [0, 30, 30] [] returnT_fits]
  part1 := by simp [Opcode.insn]
  endloop := by simp

/-- From a state of ones, `jumpr r3` goes to what is in `R3`, and the conditional return to what is left in its
`BRANCHR_DEST`, the bytes 2, instead of the word it has loaded. -/
theorem indirect_dest_both :
    LeavesBy (fun _ s => s) (fillBnInstructionLowLevelIl .added 0x1000 true jumprPacket.insn)
      ⟨fun _ => 1, fun _ _ => 2, fun _ => 3⟩ (.jump (.register 4 (.temp 200))) 0x01010101 ∧
    LeavesBy (fun _ s => s) (fillBnInstructionLowLevelIl .added 0x1000 true returnTPacket.insn)
      ⟨fun _ => 1, fun _ _ => 2, fun _ => 3⟩ (.jump (.register 4 (.temp 200))) 0x02020202 := by
  constructor
  · obtain ⟨a, ha, hl⟩ := indirect_dest jumprPacket jumprPacket.insn rfl 0x1000 ⟨fun _ => 1, fun _ _ => 2, fun _ => 3⟩
      0 _ rfl true ⟨rfl, by decide, by decide⟩ rfl rfl (by decide) .added fun _ s => s
    obtain rfl : 0x01010101 = a := Option.some.inj ha
    exact hl
  · obtain ⟨a, ha, hl⟩ := indirect_dest returnTPacket returnTPacket.insn rfl 0x1000
      ⟨fun _ => 1, fun _ _ => 2, fun _ => 3⟩ 0 _ rfl false ⟨rfl, by decide, by decide⟩ rfl rfl
        (by decide) .added fun _ s => s
    exact hl

end Hex
