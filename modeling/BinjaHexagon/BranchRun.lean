import BinjaHexagon.BranchTail
import BinjaHexagon.Opcodes
import BinjaHexagon.Prepare
/-!
# BranchRun — a packet runs to one exit

The whole emitted function from its first instruction: flags, lifted instructions, write-back, and then the one transfer
that is due.
-/
namespace Hex

open Flow (Block Instr Sem At Runs Halts Cfg marks)

theorem flagSet_clear_of_false {m n : Nat} {s : PhysState} (h : flagSet m s = false) :
    flagSet m ((clearFlag n).exec s) = false := by
  by_cases hmn : m = n
  · rw [hmn]; exact flagSet_clear n s
  · rw [← h]
    refine flagSet_congr (IlInsn.exec_temp (fun d hd => ?_) s)
    rw [List.mem_singleton.1 hd]
    simp only [Temp.index, ne_eq, LReg.temp.injEq]
    omega

theorem flagSet_execAll_clear : ∀ {is : List Insn} {n m : Nat} {s : PhysState}, flagSet m s = false →
    flagSet m (execAll (clearTaken n is) s) = false
  | [], _, _, _, h => h
  | i :: is, n, m, s, h => by
    unfold clearTaken
    split
    · exact flagSet_execAll_clear (flagSet_clear_of_false h)
    · exact flagSet_execAll_clear h

/-- **Every flag the tail can test is down before the first instruction runs.** -/
theorem flagSet_cleared : ∀ {is : List Insn} {n k : Nat} {i : Insn} {s : PhysState}, is[k]? = some i →
    i.part1 = false → i.isCondJump = true →
      clearFlag (n + k) ∈ clearTaken n is ∧ flagSet (n + k) (execAll (clearTaken n is) s) = false
  | [], _, _, _, _, h, _, _ => by cases h
  | j :: is, n, 0, i, s, h, hp, hc => by
    obtain rfl : j = i := by simpa using h
    have : (!j.part1 && j.isCondJump) = true := by simp [hp, hc]
    unfold clearTaken
    rw [if_pos this]
    exact ⟨List.mem_cons_self, flagSet_execAll_clear (flagSet_clear n s)⟩
  | j :: is, n, k + 1, i, s, h, hp, hc => by
    have ih (s : PhysState) := flagSet_cleared (n := n + 1) (s := s) (show is[k]? = some i by simpa using h) hp hc
    rw [show n + (k + 1) = n + 1 + k by omega]
    unfold clearTaken
    split
    · exact ⟨List.mem_cons_of_mem _ (ih s).1, (ih _).2⟩
    · exact ih s

variable {pc : BitVec 64}

theorem body_keeps_flag : ∀ {is : List Insn} {n m : Nat} {ctx : PacketContext} (s : PhysState), m < n →
    n + is.length ≤ 10 → flagSet m ((packetBody (liftInsns pc n is ctx)).run bodySem s) = flagSet m s
  | [], _, _, _, _, _, _ => rfl
  | i :: is, n, m, ctx, s, hm, hn => by
    rw [List.length_cons] at hn
    rw [liftInsns, run_packetBody_cons, body_keeps_flag _ (by omega) (by omega), lift_keeps_flag (by omega) (by omega)]

/-- After the body a conditional branch's flag is up exactly when its own behaviour reached the branch. -/
theorem flagSet_body : ∀ {is : List Insn} {n k : Nat} {ctx : PacketContext} {i : Insn} {s : PhysState},
    n + is.length ≤ 10 → is[k]? = some i → i.isCondJump = true → flagSet (n + k) s = false →
      flagSet (n + k) ((packetBody (liftInsns pc n is ctx)).run bodySem s) =
        reachedBranch ((insnLogs (liftInsns pc n is ctx) s).getD k [])
  | [], _, _, _, _, _, _, h, _, _ => by cases h
  | j :: is, n, 0, ctx, i, s, hn, h, hc, hf => by
    obtain rfl : j = i := by simpa using h
    rw [List.length_cons] at hn
    rw [liftInsns, run_packetBody_cons, body_keeps_flag _ (Nat.lt_succ_self _) (by omega), Nat.add_zero,
      lift_tracks hc, show flagSet n s = false from hf, Bool.false_or, insnLogs]
    rfl
  | j :: is, n, k + 1, ctx, i, s, hn, h, hc, hf => by
    rw [List.length_cons] at hn
    have hf' : flagSet (n + 1 + k) ((lift pc j n ctx).block.run bodySem s) = false := by
      rw [lift_keeps_flag (by omega) (by omega), show n + 1 + k = n + (k + 1) by omega, hf]
    have hk : is[k]? = some i := by simpa using h
    rw [liftInsns, run_packetBody_cons, show n + (k + 1) = n + 1 + k by omega,
      flagSet_body (by omega) hk hc hf', insnLogs]
    rfl

theorem temp_execAll_writeBack (h : HashOrder) (ctx : PacketContext) (s : PhysState) :
    (execAll (writeClobberedRegs h ctx) s).temp = s.temp := by
  have hstep (d : DestReg) (s : PhysState) : ((d.copyFromTemp.map LReg.index).exec s).temp = s.temp := by
    unfold DestReg.copyFromTemp
    split <;> rfl
  have hall : ∀ (l : List DestReg) (s : PhysState),
      (execAll (l.map fun d => d.copyFromTemp.map LReg.index) s).temp = s.temp := by
    intro l
    induction l with
    | nil => exact fun _ => rfl
    | cons d l ih =>
      intro s
      rw [List.map_cons, execAll, List.foldl_cons]
      exact (ih _).trans (hstep d s)
  exact hall _ s

theorem hasCof_of_branches {p : Decoded} {is : List Insn} (h : preparePacketForLifting p.insn = some is) {i : Insn}
    (hi : i ∈ is) (hb : i.branches = true) :
    hasCof p.insn = true := by
  obtain ⟨j, hj, b, rfl⟩ := mem_preparePacket h hi
  have hb' : j.isJump = true ∨ j.isCall = true := by
    simp only [Insn.branches, Bool.and_eq_true, Bool.or_eq_true] at hb
    exact hb.2
  have hcan : j.canJump = true := by
    rcases hb' with hb' | hb'
    · simp only [Insn.isJump, Bool.and_eq_true] at hb'
      simp [Insn.canJump, hb'.1, hb'.2]
    · have htag : j.opcode.tag ≠ .j4Hintjumpr := by
        intro ht
        have := j.opcode.hint_not_call ht
        rw [Insn.isCall, Insn.attrib, this] at hb'
        cases hb'
      rw [Insn.isCall] at hb'
      simp [Insn.canJump, hb', htag]
  exact List.any_eq_true.2 ⟨j, hj, by simp [p.part1 j hj, hcan]⟩

theorem branches_of_hasCof {p : Decoded} {is : List Insn} (h : preparePacketForLifting p.insn = some is)
    (hcof : hasCof p.insn = false) : ∀ i ∈ is, i.branches = false := fun i hi => by
  cases hb : i.branches with
  | false => rfl
  | true =>
    rw [hasCof_of_branches h hi hb] at hcof
    cases hcof

theorem firstDue_none {due : Nat → Bool} : ∀ {is : List Insn} {n : Nat}, (∀ i ∈ is, i.branches = false) →
    firstDue due n is = none
  | [], _, _ => rfl
  | i :: is, n, h => by
    unfold firstDue
    rw [h i List.mem_cons_self, Bool.false_and, if_neg Bool.false_ne_true]
    exact firstDue_none fun j hj => h j (List.mem_cons_of_mem _ hj)

/-- `BRANCH_TAKEN` cleared, for the packets that can change the flow. -/
def initFlags (hasCof : Bool) (is : List Insn) : List (LInsn Nat) := if hasCof then clearTaken 0 is else []

/-- Everything before the write-back, as one block: flags and lifted instructions. -/
def untilWriteBack (pc : BitVec 64) (hasCof : Bool) (is : List Insn) : Block EmitAct (LExpr Nat) :=
  Block.ofList ((initFlags hasCof is).map .il) ++ LiftBlock.emitted (packetBody (liftInsns pc 0 is .empty))

/-- Everything before the tail, as one block: flags, lifted instructions, write-back. -/
def untilTail (h : HashOrder) (pc : BitVec 64) (hasCof : Bool) (is : List Insn) : Block EmitAct (LExpr Nat) :=
  let ls := liftInsns pc 0 is .empty
  Block.ofList ((initFlags hasCof is).map .il) ++ (LiftBlock.emitted (packetBody ls) ++
    Block.ofList ((writeClobberedRegs h (lastCtx .empty ls)).map .il))

theorem emit_untilTail (h : HashOrder) (hasCof : Bool) (is : List Insn) :
    fillBnInstructionLowLevelIl h pc hasCof is =
      ((untilTail h pc hasCof is).emit Transfer 0).1 ++ (if hasCof then
        branchTail pc ((untilTail h pc hasCof is).emit Transfer 0).2
          (((untilTail h pc hasCof is).emit Transfer 0).2 + 1) 0 is else []) := by
  simp only [fillBnInstructionLowLevelIl, untilTail, initFlags, Block.emit_append, Block.emit_ofList, List.map_map,
    List.append_assoc]
  rfl

theorem run_ofList_il (callee : BitVec 64 → PhysState → PhysState) : ∀ (l : List (LInsn Nat)) (s : PhysState),
    (Block.ofList (l.map .il) : Block EmitAct (LExpr Nat)).run (emitSem callee) s = execAll l s
  | [], _ => rfl
  | i :: l, s => run_ofList_il callee l (i.exec s)

theorem run_emitted (callee : BitVec 64 → PhysState → PhysState) (b : LiftBlock) (s : PhysState) :
    (LiftBlock.emitted b).run (emitSem callee) s = b.run bodySem s := by
  rw [LiftBlock.emitted, Block.run_filterMap, emitSem_pull]

/-- A lifted instruction calls nothing: its calls are left to the tail. -/
theorem emitted_no_call (callee : BitVec 64 → PhysState → PhysState) (b : LiftBlock) (s : PhysState) :
    ∀ e ∈ (LiftBlock.emitted b).log (emitSem callee) s, ∀ d, e.2 ≠ .inl (.call d) := by
  rintro ⟨s', a⟩ he d rfl
  rw [LiftBlock.emitted, Block.log_filterMap, List.mem_filterMap] at he
  obtain ⟨⟨s'', a⟩, -, ha⟩ := he
  cases a with
  | inr c => simp [Block.entry] at ha
  | inl a => cases a <;> simp [Block.entry, LiftAct.emit] at ha

theorem ofList_no_call (callee : BitVec 64 → PhysState → PhysState) (l : List (LInsn Nat)) (s : PhysState) :
    ∀ e ∈ (Block.ofList (l.map .il) : Block EmitAct (LExpr Nat)).log (emitSem callee) s,
      ∀ d, e.2 ≠ .inl (.call d) := by
  rintro ⟨s', a⟩ he d rfl
  have := Block.mem_acts_of_mem_log _ _ _ he
  rw [Block.acts_ofList, List.mem_map] at this
  obtain ⟨i, -, hi⟩ := this
  cases hi

theorem nodup_marks_fillBn (h : HashOrder) (hasCof : Bool) (is : List Insn) :
    (marks (fillBnInstructionLowLevelIl h pc hasCof is)).Nodup := by
  rw [emit_untilTail, Flow.marks_append]
  have hpre := Block.nodup_marks_emit Transfer (untilTail h pc hasCof is) 0
  cases hasCof with
  | false => simpa [marks] using hpre
  | true =>
    obtain ⟨h1, h2⟩ := @marks_branchTail pc _ is _ 0 (Nat.lt_succ_self ((untilTail h pc true is).emit Transfer 0).2)
    refine List.nodup_append.2 ⟨hpre, h2, fun a ha b hb => ?_⟩
    have h3 := Block.marks_emit Transfer (untilTail h pc true is) 0 a ha
    have h4 := h1 b hb
    omega

section Until

variable (h : HashOrder) (callee : BitVec 64 → PhysState → PhysState) (cof : Bool) (is : List Insn) (s : PhysState)

theorem run_untilTail : (untilTail h pc cof is).run (emitSem callee) s =
    packetState h pc is (execAll (initFlags cof is) s) := by
  simp only [untilTail, Block.run_append, run_ofList_il, run_emitted, packetState, bodyState]

/-- The log before the tail: flags and instructions, where nothing calls, then the write-back. -/
theorem log_untilTail : ∃ before written : EmitLog,
    (untilTail h pc cof is).log (emitSem callee) s = before ++ written ∧
      (before = (untilWriteBack pc cof is).log (emitSem callee) s ∧ ∀ e ∈ before, ∀ d, e.2 ≠ .inl (.call d)) ∧
      (∀ i ∈ initFlags cof is, ∃ e ∈ before, e.2 = .inl (.il i)) ∧
      written.map Prod.snd =
        (writeClobberedRegs h (lastCtx .empty (liftInsns pc 0 is .empty))).map (fun i => .inl (.il i)) := by
  simp only [untilTail, Block.log_append]
  refine ⟨_, _, (List.append_assoc _ _ _).symm, ⟨(Block.log_append _ _ _ _).symm, fun e he => ?_⟩, fun i hi => ?_, ?_⟩
  · rcases List.mem_append.1 he with he | he
    · exact ofList_no_call callee _ _ e he
    · exact emitted_no_call callee _ _ e he
  · have hlog := Block.log_ofList_map (β := LExpr Nat) (emitSem callee) ((initFlags cof is).map .il) s
    have hmem : (.inl (.il i) : EmitAct ⊕ LExpr Nat) ∈
        ((Block.ofList ((initFlags cof is).map .il) : Block EmitAct (LExpr Nat)).log (emitSem callee) s).map
            Prod.snd := by
      rw [hlog, List.map_map]
      exact List.mem_map.2 ⟨i, hi, rfl⟩
    obtain ⟨e, he, heq⟩ := List.mem_map.1 hmem
    exact ⟨e, List.mem_append_left _ he, heq⟩
  · rw [Block.log_ofList_map, List.map_map]
    rfl

/-- In the state before the tail a flag is up exactly when its instruction's behaviour reached the branch. -/
theorem flagSet_untilTail (hlen : is.length ≤ 10) {k : Nat} {i : Insn} (hi : is[k]? = some i) (hp : i.part1 = false)
    (hc : i.isCondJump = true) : flagSet k ((untilTail h pc true is).run (emitSem callee) s) =
      reachedBranch ((insnLogs (liftInsns pc 0 is .empty) (execAll (initFlags true is) s)).getD k []) := by
  have hclear : flagSet (0 + k) (execAll (initFlags true is) s) = false := (flagSet_cleared hi hp hc).2
  have hbody : flagSet (0 + k) ((packetBody (liftInsns pc 0 is .empty)).run bodySem _) = _ :=
    flagSet_body (by omega) hi hc hclear
  rw [Nat.zero_add] at hbody
  rw [run_untilTail, ← hbody]
  exact flagSet_congr (by rw [packetState, temp_execAll_writeBack, bodyState])

end Until

/-- How a packet's IL runs from `s`: the flags and the instructions, which call nothing, the write-back, tests of
flags that were cleared on the way, and the transfer of the first branch due. -/
def ResolvesBranches (h : HashOrder) (pc : BitVec 64) (callee : BitVec 64 → PhysState → PhysState) (cof : Bool)
    (is : List Insn) (s : PhysState) : Prop :=
  let code := fillBnInstructionLowLevelIl h pc cof is
  let ls := liftInsns pc 0 is .empty
  let s₁ := execAll (initFlags cof is) s
  let writeBack := writeClobberedRegs h (lastCtx .empty ls)
  let s₃ := packetState h pc is s₁
  let c := (firstDue (fun n => reachedBranch ((insnLogs ls s₁).getD n [])) 0 is).map fun w => w.2.control pc w.1
  ∃ (fin : EmitCfg) (before written tests : EmitLog), Halts (emitSem callee) code ⟨0, s, []⟩ fin ∧
    fin.log = before ++ written ++ tests ++ Control.log s₃ c ∧
    (before = (untilWriteBack pc cof is).log (emitSem callee) s ∧ ∀ e ∈ before, ∀ d, e.2 ≠ .inl (.call d)) ∧
    written.map Prod.snd = writeBack.map (fun i => .inl (.il i)) ∧
    (∀ e ∈ tests, ∃ n, e.2 = .inr (takenTest n) ∧ ∃ e' ∈ before, e'.2 = .inl (.il (clearFlag n))) ∧
    fin.st = Control.state callee s₃ c ∧ Control.Ends code fin.pc c

variable (h : HashOrder) (callee : BitVec 64 → PhysState → PhysState) (is : List Insn) (s : PhysState)

theorem resolves_of_no_branch (hb : ∀ i ∈ is, i.branches = false) : ResolvesBranches h pc callee false is s := by
  unfold ResolvesBranches
  intro code ls s₁ writeBack s₃ c
  have hcode : code = _ := emit_untilTail h false is
  rw [if_neg Bool.false_ne_true, List.append_nil] at hcode
  have hat := At.self code
  conv at hat => rhs; rw [hcode]
  have hrun := Block.runs_emit (emitSem callee) (nodup_marks_fillBn h false is) (untilTail h pc false is) 0 0 s [] hat
  obtain ⟨before, written, hlog, hbefore, -, hwritten⟩ := log_untilTail h callee false is s
  rw [run_untilTail, List.nil_append, Nat.zero_add, hlog, ← hcode] at hrun
  have hc : c = none := by simp only [c, firstDue_none hb, Option.map_none]
  rw [hc]
  exact ⟨_, before, written, [], ⟨hrun, Flow.step_end _ _ _⟩, by simp [Control.log], hbefore, hwritten,
    fun _ h => absurd h List.not_mem_nil, rfl, rfl⟩

theorem resolves_of_cof (hlen : is.length ≤ 10) : ResolvesBranches h pc callee true is s := by
  unfold ResolvesBranches
  intro code ls s₁ writeBack s₃ c
  have hn : (marks code).Nodup := nodup_marks_fillBn h true is
  have hcode : code = _ := emit_untilTail h true is
  rw [if_pos rfl] at hcode
  have hat := At.self code
  conv at hat => rhs; rw [hcode]
  have hrun := Block.runs_emit (emitSem callee) hn (untilTail h pc true is) 0 0 s [] hat.left
  obtain ⟨before, written, hlog, hbefore, hflags, hwritten⟩ := log_untilTail h callee true is s
  rw [run_untilTail, List.nil_append, hlog] at hrun
  have hlast : code[code.length - 1]? = some (.label ((untilTail h pc true is).emit Transfer 0).2) := by
    rw [← List.getLast?_eq_getElem?, hcode, List.getLast?_append, getLast_branchTail]
    rfl
  have hpos : 0 < code.length := by
    rcases Nat.eq_zero_or_pos code.length with h0 | h0
    · rw [List.length_eq_zero_iff.1 h0] at hlast; cases hlast
    · exact h0
  obtain ⟨fin, tests, hfin, hlogfin, htests, hst, hends⟩ := halts_branchTail callee hn hlast hpos is _ 0 _ s₃
    (before ++ written) hat.right (by rw [hcode, List.length_append, Nat.zero_add])
  have hdue : firstDue (flagSet · s₃) 0 is = firstDue (fun n => reachedBranch ((insnLogs ls s₁).getD n [])) 0 is := by
    refine firstDue_congr fun k i hi hb hc => ?_
    simp only [Insn.branches, Bool.and_eq_true, Bool.not_eq_true'] at hb
    have := @flagSet_untilTail pc h callee is s hlen k i hi hb.1 hc
    rwa [run_untilTail, ← Nat.zero_add k] at this
  rw [hdue] at hlogfin hst hends
  refine ⟨fin, before, written, tests, hrun.halts hfin, hlogfin, hbefore, hwritten, fun e he => ?_, hst, hends⟩
  obtain ⟨k, i, hi, hb, hc, ht⟩ := htests e he
  simp only [Insn.branches, Bool.and_eq_true, Bool.not_eq_true'] at hb
  exact ⟨0 + k, ht, hflags _ (flagSet_cleared (s := s) hi hb.1 hc).1⟩

/-- **Branch resolution.**  From any state, stale temporaries included, the emitted function has one halting run.  It
writes the clobbered registers back once, before any transfer; then it tests only flags that it cleared itself, and
leaves by the first branch of the prepared packet that is unconditional or whose own behaviour reached its jump, or
falls through when there is none.  A call comes back past every other branch, whatever the callee does. -/
theorem branch_resolution (h : HashOrder) (pc : BitVec 64) (callee : BitVec 64 → PhysState → PhysState) (p : Decoded)
    (is : List Insn) (hprep : preparePacketForLifting p.insn = some is) (s : PhysState) :
    ResolvesBranches h pc callee (hasCof p.insn) is s := by
  cases hcof : hasCof p.insn with
  | false => exact resolves_of_no_branch h callee is s (branches_of_hasCof hprep hcof)
  | true => exact resolves_of_cof h callee is s ((length_preparePacket hprep).trans (by decide))

/-- `{ if (p0) jump; call }`. -/
def jumpCall : Decoded where
  insn := [Opcodes.j2Jumpt.insn [0] [8] (by decide), Opcodes.j2Call.insn [] [64] (by decide)]
  part1 := by decide
  endloop := by decide

theorem branch_resolution_jumpCall : preparePacketForLifting jumpCall.insn = some jumpCall.insn ∧
    ResolvesBranches .added 0x1000 (fun _ s => s) (hasCof jumpCall.insn) jumpCall.insn
      ⟨fun _ => 0, fun _ _ => 1, fun _ => 0⟩ :=
  ⟨rfl, branch_resolution .added 0x1000 (fun _ s => s) jumpCall _ rfl _⟩

end Hex
