import BinjaHexagon.IlUtil
import BinjaHexagon.LiftDests
/-!
# Exec — a packet's lifted instructions executed

`bodySem` is what the lifted acts do to the machine; an `IlBranch` does nothing there and only leaves its mark in the
log.  A conditional branch's `BRANCH_TAKEN` flag is raised exactly when its own behaviour reaches the branch.
-/
namespace Hex

open Flow (Block Sem)

def bodySem : Sem LiftAct (LExpr Temp) PhysState where
  exec
    | .il i, s => (i.map LReg.index).exec s
    | .branch _ _, s => s
  test c s := IlExpr.test (c.map LReg.index) s

theorem emitSem_pull (callee : BitVec 64 → PhysState → PhysState) :
    (emitSem callee).pull LiftAct.emit (IlExpr.map LReg.index) = bodySem := by
  have h : ((emitSem callee).pull LiftAct.emit (IlExpr.map LReg.index)).exec = bodySem.exec := by
    funext a s
    cases a <;> rfl
  exact Sem.ext h rfl

def execAll (l : List (LInsn Nat)) (s : PhysState) : PhysState := l.foldl (fun s i => i.exec s) s

/-- The state after a packet's lifted instructions. -/
def bodyState (pc : BitVec 64) (is : List Insn) (s : PhysState) : PhysState :=
  (packetBody (liftInsns pc 0 is .empty)).run bodySem s

/-- The state after the write-back. -/
def packetState (h : HashOrder) (pc : BitVec 64) (is : List Insn) (s : PhysState) : PhysState :=
  execAll (writeClobberedRegs h (lastCtx .empty (liftInsns pc 0 is .empty))) (bodyState pc is s)

abbrev BodyLog := Flow.Log LiftAct (LExpr Temp) PhysState

/-- The log of each instruction of a packet, in order. -/
def insnLogs : List Lifted → PhysState → List BodyLog
  | [], _ => []
  | l :: ls, s => l.block.log bodySem s :: insnLogs ls (l.block.run bodySem s)

theorem run_packetBody_cons (l : Lifted) (ls : List Lifted) (s : PhysState) :
    (packetBody (l :: ls)).run bodySem s = (packetBody ls).run bodySem (l.block.run bodySem s) := by
  rw [packetBody, List.map_cons, Block.flatten, Block.run_append, packetBody]

/-- An act that passes an `IlBranch`. -/
def LiftAct.isBranch : LiftAct → Bool
  | .branch _ _ => true
  | .il _ => false

/-- The instruction's own behaviour reached its jump, call or return statement. -/
def reachedBranch (l : BodyLog) : Bool := l.any fun e => e.2.elim LiftAct.isBranch fun _ => false

/-- `BRANCH_TAKEN` of instruction `n` holds 1. -/
def flagSet (n : Nat) (s : PhysState) : Bool := s.get 1 (.temp (Temp.branchTaken n).index) == 1

theorem takenTest_test (n : Nat) (s : PhysState) : (takenTest n).test s = flagSet n s := by
  have h1 : Bytes.norm 1 1#64 = 1#64 := by decide
  rw [takenTest, IlExpr.test_compare, flagSet, IlCompare.eval, IlExpr.eval, IlExpr.eval, State.get,
    Bytes.norm_join _ (by decide), Bytes.norm_norm]
  exact congrArg (_ == ·) h1

theorem flagSet_clear (n : Nat) (s : PhysState) : flagSet n ((clearFlag n).exec s) = false := by
  simp only [flagSet, clearFlag, IlInsn.exec, State.set, IlExpr.eval]
  rw [State.get_setTemp_same _ _ _ _ (by decide)]
  decide

theorem flagSet_congr {n : Nat} {s s' : PhysState}
    (h : s'.temp (Temp.branchTaken n).index = s.temp (Temp.branchTaken n).index) : flagSet n s' = flagSet n s := by
  simp only [flagSet, State.get, h]

theorem map_dests (x : LInsn Temp) {d : Nat × LReg Nat} (h : d ∈ (x.map LReg.index).dests) :
    ∃ e ∈ x.dests, d = (e.1, e.2.index) := by
  rw [IlInsn.map, IlInsn.dests_subst, List.mem_map] at h
  obtain ⟨e, he, rfl⟩ := h
  exact ⟨e, he, rfl⟩

/-- An act leaves alone every temporary whose index it does not name. -/
theorem exec_temp_of_index {a : LiftAct} {k : Nat}
    (h : ∀ x, a = .il x → ∀ d ∈ x.dests, ∀ t, d.2 = .temp t → t.index ≠ k) (s : PhysState) :
    (bodySem.exec a s).temp k = s.temp k := by
  cases a with
  | branch _ _ => rfl
  | il x =>
    refine IlInsn.exec_temp (fun d hd => ?_) s
    obtain ⟨e, he, rfl⟩ := map_dests x hd
    cases hr : e.2 with
    | hex r => exact fun h => by simp [LReg.map] at h
    | temp t =>
      intro hk
      simp only [LReg.map, LReg.temp.injEq] at hk
      exact h x rfl e he t hr hk

/-- Instruction `m` does not touch the flag of another instruction. -/
theorem lift_keeps_flag {pc : BitVec 64} {i : Insn} {m n : Nat} {ctx : PacketContext} (hm : m < 10) (hmn : m ≠ n)
    (s : PhysState) : flagSet n ((lift pc i m ctx).block.run bodySem s) = flagSet n s := by
  refine Block.run_induction bodySem (fun s' => flagSet n s' = flagSet n s) _ (fun a ha s' hs' => ?_) s rfl
  rw [← hs']
  refine flagSet_congr (exec_temp_of_index (fun x hx d hd t ht => ?_) s')
  subst hx
  rcases lift_dests ha hd ht with h | rfl | ⟨rfl, -, -⟩
  · rw [show (Temp.branchTaken n).index = 210 + n from rfl]; omega
  · simp only [Temp.index]; omega
  · simp only [Temp.index]; omega

/-- An act that names only operands does not touch the flag. -/
theorem flagSet_exec_small {x : LInsn Temp} (n : Nat)
    (h : ∀ d ∈ x.dests, ∀ t, d.2 = .temp t → t.index < 200) (s : PhysState) :
    flagSet n (bodySem.exec (.il x) s) = flagSet n s := by
  refine flagSet_congr (exec_temp_of_index (fun y hy d hd t ht => ?_) s)
  cases hy
  have := h d hd t ht
  rw [show (Temp.branchTaken n).index = 210 + n from rfl]
  omega

theorem flagSet_setTaken (n : Nat) (s : PhysState) :
    flagSet n (bodySem.exec (.il (.setRegister 1 (.temp (.branchTaken n)) (.const 1 1))) s) = true := by
  simp only [bodySem, IlInsn.map, IlInsn.subst, IlInsn.exec, LReg.map, State.set, flagSet]
  rw [State.get_setTemp_same _ _ _ _ (by decide)]
  rfl

theorem flagSet_setDest (n : Nat) (v : LExpr Temp) (s : PhysState) :
    flagSet n (bodySem.exec (.il (.setRegister 4 (.temp (.branchrDest n)) v)) s) = flagSet n s := by
  refine flagSet_congr (exec_temp_of_index (fun y hy d hd t ht => ?_) s)
  cases hy
  rw [List.mem_singleton.1 hd] at ht
  cases ht
  simp only [Temp.index]
  omega

/-- What `macro_stmt_fBRANCH` returns for a conditional branch. -/
theorem macroBranch_true {loc : IlVal} {typ : BranchType} {b : GBlock} (h : macroBranch true loc typ = some b) :
    (∃ k, b = .act (.insn (.setRegister 1 .branchTaken (.const 1 (.lit 1)))) (.act (.branch k loc.expr) .nil)) ∨
    (∃ k, b = .act (.insn (.setRegister 1 .branchTaken (.const 1 (.lit 1))))
      (.act (.insn (.setRegister 4 .branchrDest loc.expr)) (.act (.branch k loc.expr) .nil))) := by
  cases typ with
  | jump | jumpnew | call | ret => cases h; exact .inl ⟨_, rfl⟩
  | jumpr | callr | loopend0 | loopend1 => cases h; exact .inr ⟨_, rfl⟩

theorem Shape.tracks {b : GBlock} (h : Shape true b) (E : LiftEnv) (henv : ∀ p ∈ E.regs, p.2.Operand) :
    ∀ imms, Block.Tracks bodySem (flagSet E.insnNum) LiftAct.isBranch (b.instantiate E.item E.expr imms).2 := by
  induction h with
  | nil => exact fun _ => .nil
  | insn i hi =>
    refine fun imms => .act rfl fun s => flagSet_exec_small _ (fun d hd t ht => ?_) s
    rw [LiftEnv.insn, IlInsn.dests_subst, List.mem_map] at hd
    obtain ⟨e, he, rfl⟩ := hd
    exact resolveReg_operand henv _ (hi e he) ht
  | pcalign l => exact fun _ => .nil
  | branch loc typ b hb =>
    intro imms
    rcases macroBranch_true hb with ⟨k, rfl⟩ | ⟨k, rfl⟩
    · exact .raise (flagSet_setTaken E.insnNum) (fun _ => rfl) (fun _ => rfl)
    · exact .raise (flagSet_setTaken E.insnNum) (flagSet_setDest E.insnNum _) (fun _ => rfl)
  | append hb hk ihb ihk =>
    intro imms
    rw [Block.instantiate_append]
    exact (ihb imms).append (ihk _)
  | ifThen c ht ih => exact fun imms => .ifThen (ih imms)
  | ifElse c ht hf iht ihf => exact fun imms => .ifElse (iht imms) (ihf _)

/-- **The flag of a conditional branch is raised exactly when its own behaviour reaches the branch.** -/
theorem lift_tracks {pc : BitVec 64} {i : Insn} {n : Nat} {ctx : PacketContext} (hc : i.isCondJump = true)
    (s : PhysState) : flagSet n ((lift pc i n ctx).block.run bodySem s) =
      (flagSet n s || reachedBranch ((lift pc i n ctx).block.log bodySem s)) := by
  have ok := i.declared_ok ctx
  unfold lift
  split
  · have hdecl : Block.Tracks bodySem (flagSet n) LiftAct.isBranch
        (Block.ofList ((i.declared ctx).code.map .il) : LiftBlock) := by
      refine .ofList fun a ha => ?_
      obtain ⟨c, hc, rfl⟩ := List.mem_map.1 ha
      refine ⟨rfl, fun s => flagSet_exec_small n (fun d hd t ht => ?_) s⟩
      have := ok.code c hc d hd
      rw [ht] at this
      exact this.index_lt
    have hbody := (hc ▸ i.semantics_shape).tracks ⟨(i.declared ctx).env, n, pc, i.extensionValid⟩ ok.env i.immEnv
    exact hdecl.append hbody s
  · have : Block.Tracks bodySem (flagSet n) LiftAct.isBranch (.act (.il .undefined) .nil : LiftBlock) :=
      .act rfl fun s => rfl
    exact this s

end Hex
