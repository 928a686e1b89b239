import BinjaHexagon.BranchTail
import BinjaHexagon.DirectWrites
import BinjaHexagon.WriteBack
/-!
# ParallelReads — what the instructions of a packet read

The instructions of a packet are lifted one behind the other.  A register read in place is as the packet found it
unless an earlier instruction wrote it directly; a temporary holds what was last assigned to it, else what its first
registration loaded, else what an earlier packet left.  A jump to `r31` is emitted as a return that reads the link
register once more, behind the write-back.
-/
namespace Hex

open Bytes (byte)
open Flow (Block)

section Run

variable (pc : BitVec 64) (pre : List Insn) (i : Insn) (s : PhysState)

/-- Instruction `i`, lifted behind the instructions `pre` of the packet. -/
def liftBehind : Lifted := lift pc i pre.length (lastCtx .empty (liftInsns pc 0 pre .empty))

/-- The state in which the behaviour of `i` begins. -/
def entering : PhysState := (Block.ofList ((liftBehind pc pre i).decls.map .il)).run bodySem (bodyState pc pre s)

/-- What the behaviour of `i` executes. -/
def behaviourLog : BodyLog := (liftBehind pc pre i).body.log bodySem (entering pc pre i s)

/-- In the packet `is`, the instruction `i` behind `pre`, having executed `l`, reads `q` in state `t`. -/
structure ReadAt (is : List Insn) (l : BodyLog) (t : PhysState) (q : Nat × LReg Temp) : Prop where
  packet : ∃ post, is = pre ++ i :: post
  log : ∃ (e : Step) (l' : BodyLog), behaviourLog pc pre i s = l ++ (t, e) :: l' ∧ q ∈ e.reads

/-- The packet `is` leaves by the branch of `i`, behind `pre`: its behaviour sends it to `e`. -/
structure SentBy (is : List Insn) (e : LExpr Temp) : Prop where
  packet : ∃ post, is = pre ++ i :: post
  branch : ∃ (t : PhysState) (k : BranchKind), (t, .inl (.branch k e)) ∈ behaviourLog pc pre i s
  due : firstDue (fun n => reachedBranch ((insnLogs (liftInsns pc 0 is .empty) s).getD n [])) 0 is =
    some (pre.length, i)

end Run

section Values

variable {pc : BitVec 64} {i : Insn} {r k a : Nat} {s t : PhysState} {is pre : List Insn} {l : BodyLog}
  {q : Nat × LReg Temp}

theorem reg_entering (a : Nat) : (entering pc pre i s).reg a = (lastBehind pc pre s (LiftAct.writes a)).getD
    (s.reg a) := by
  rw [entering, liftBehind, reg_run_decls, bodyState, reg_packetBody_writes, lastBehind]

/-- Instructions that do not declare a destination neither load nor assign it. -/
theorem absent (pc : BitVec 64) (hr : r < numHexRegs) :
    ∀ (is : List Insn) (n : Nat) (ctx : PacketContext) (s : PhysState),
    (packetDests is).find? (·.reg == r) = none →
      (bodyLogs (liftInsns pc n is ctx) s).filterMap (lastOf (LiftAct.puts r k)) = [] ∧
        firstLoad pc r k is n ctx s = none
  | [], _, _, _, _ => ⟨rfl, rfl⟩
  | i :: is, n, ctx, s, h => by
    rw [packetDests_cons, List.find?_append, Option.or_eq_none_iff] at h
    have ih := absent pc hr is (n + 1) (lift pc i n ctx).ctx ((lift pc i n ctx).block.run bodySem s) h.2
    have hlast : lastOf (LiftAct.puts r k) ((lift pc i n ctx).body.log bodySem
        ((Block.ofList ((lift pc i n ctx).decls.map .il)).run bodySem s)) = none := by
      refine lastOf_eq_none (fun x hx s => puts_eq_none hr (fun e he hreg => ?_) hx s) _
      exact absurd (beq_iff_eq.2 hreg) (List.find?_eq_none.1 h.1 e he)
    rw [liftInsns, bodyLogs, List.filterMap_cons, hlast, firstLoad, h.1]
    exact ih

/-- The first registration of a longer packet is that of its beginning, if that has one. -/
theorem firstLoad_append (r k : Nat) (j : Insn) : ∀ (is : List Insn) (n : Nat) (ctx : PacketContext) (s : PhysState),
    firstLoad pc r k (is ++ [j]) n ctx s =
      if (packetDests is).find? (·.reg == r) = none then
        firstLoad pc r k [j] (n + is.length) (lastCtx ctx (liftInsns pc n is ctx))
          ((packetBody (liftInsns pc n is ctx)).run bodySem s)
      else firstLoad pc r k is n ctx s
  | [], n, ctx, s => rfl
  | i :: is, n, ctx, s => by
    have ih := firstLoad_append r k j is (n + 1) (lift pc i n ctx).ctx ((lift pc i n ctx).block.run bodySem s)
    rw [List.cons_append, firstLoad, ih, packetDests_cons, List.find?_append, liftInsns, lastCtx, run_packetBody_cons,
      List.length_cons, show n + (is.length + 1) = n + 1 + is.length by omega]
    simp only [firstLoad]
    cases i.dests.find? (·.reg == r) with
    | none => rw [Option.none_or]
    | some d => rw [Option.some_or, if_neg (Option.some_ne_none _)]

/-- **The temporary of a destination when a behaviour begins**: the last assignment of an earlier instruction, else what
the first registration loaded, else what it held at entry. -/
theorem temp_entering (hr : r < numHexRegs) (k : Nat) : (entering pc pre i s).temp r k =
    (lastBehind pc pre s (LiftAct.puts r k)).getD ((firstLoad pc r k (pre ++ [i]) 0 .empty s).getD (s.temp r k)) := by
  have hpre : (bodyState pc pre s).temp r k =
      (lastBehind pc pre s (LiftAct.puts r k)).getD ((firstLoad pc r k pre 0 .empty s).getD (s.temp r k)) := by
    rw [bodyState, temp_packet hr, lastBehind, if_pos (show PacketContext.empty.find r = none from rfl)]
  have hfind : (lastCtx .empty (liftInsns pc 0 pre .empty)).find r = (packetDests pre).find? (·.reg == r) := by
    rw [find_lastCtx, show PacketContext.empty.find r = none from rfl, Option.none_or]
  rw [entering, liftBehind, temp_decls hr, hfind, firstLoad_append]
  by_cases hin : (packetDests pre).find? (·.reg == r) = none
  · obtain ⟨hlogs, hload⟩ := absent (k := k) pc hr pre 0 .empty s hin
    rw [if_pos hin, hpre, hload, lastBehind, hlogs, firstLoad, firstLoad]
    simp only [List.getLast?_nil, Option.getD_none, hin, true_and]
    cases i.dests.find? (·.reg == r) with
    | none => rfl
    | some d =>
      simp only [Option.any_some]
      split <;> rfl
  · rw [if_neg hin, if_neg fun h => hin h.1, hpre]

theorem ReadAt.reg (h : ReadAt pc pre i s is l t q) (a : Nat) :
    t.reg a = ((lastOf (LiftAct.writes a) l).or (lastBehind pc pre s (LiftAct.writes a))).getD (s.reg a) := by
  obtain ⟨e, l', hlog, -⟩ := h.log
  rw [(reg_log single_body a _).2 l t e l' hlog, reg_entering]
  cases lastOf (LiftAct.writes a) l <;> rfl

theorem ReadAt.temp (h : ReadAt pc pre i s is l t q) (hr : r < numHexRegs) (k : Nat) :
    t.temp r k = ((lastOf (LiftAct.puts r k) l).or (lastBehind pc pre s (LiftAct.puts r k))).getD
      ((firstLoad pc r k (pre ++ [i]) 0 .empty s).getD (s.temp r k)) := by
  obtain ⟨e, l', hlog, -⟩ := h.log
  rw [(temp_log single_body r k _).2 l t e l' hlog, temp_entering hr]
  cases lastOf (LiftAct.puts r k) l <;> rfl

end Values

/-- `fREAD_P0` occurs. -/
def Expr.readsP0 : Expr → Bool
  | .operand _ => false
  | .neg e | .not e | .bitNot e | .call1 _ e => e.readsP0
  | .binop _ a b | .relop _ a b | .call2 _ a b => a.readsP0 || b.readsP0
  | .call0 .fReadP0 => true
  | .call0 _ => false

def Stmt.readsP0 : Stmt → Bool
  | .skip | .fImmext _ | .fPcalign _ | .fTrap | .fBreak | .fLoad _ _ _ => false
  | .seq s t => s.readsP0 || t.readsP0
  | .assg _ e | .assgBinop _ _ e => e.readsP0
  | .ifThen c t => c.readsP0 || t.readsP0
  | .ifElse c t f => c.readsP0 || (t.readsP0 || f.readsP0)
  | .fBranch e _ | .fStore _ e | .fStoreLocked _ e _ | .fWriteFp e | .fWriteLr e | .fWriteSp e | .fSetLpcfg e
  | .fWriteLc _ e | .fSethalf _ _ e | .fSetword _ _ e | .fWriteP _ e => e.readsP0
  | .fJumpr a b _ | .fWriteLoopRegs _ a b => a.readsP0 || b.readsP0

/-- The instruction tests `P0` in its old sense: `if (p0)` or `if (!p0)` of the sub-instructions. -/
def Insn.readsP0 (i : Insn) : Bool := i.opcode.parts.any Stmt.readsP0

/-- Every read of a predicate in its old sense, of an operand or of the fixed `P0`, gives the packet-entry value. -/
structure OldPreds (pc : BitVec 64) (is : List Insn) (s : PhysState) : Prop where
  operand : ∀ pre i l t m n, n < 4 → ReadAt pc pre i s is l t (m, .hex (hexRegP0 + n)) →
    t.reg (regBase (hexRegP0 + n)) = s.reg (regBase (hexRegP0 + n))
  fixed : ∀ pre i l t m, i.readsP0 = true → ReadAt pc pre i s is l t (m, .temp (.reg 0 hexRegP0)) →
    t.temp hexRegP0 0 = s.reg (regBase hexRegP0)

section OldPreds

variable {pc : BitVec 64} {is pre : List Insn} {i : Insn} {s t : PhysState} {l : BodyLog} {q : Nat × LReg Temp}
    {d : DestReg}

theorem good_packetDests (hd : d ∈ packetDests is) : d.Good := by
  obtain ⟨i, -, hd⟩ := List.mem_flatMap.1 hd
  unfold Insn.dests at hd
  split at hd
  · obtain ⟨p, hp, hpd⟩ := List.mem_filterMap.1 hd
    split at hpd
    · rename_i rw n r hdest
      cases hpd
      obtain ⟨name, p⟩ := p
      cases hdest
      exact Insn.good_of_place hp
    · cases hpd
  · exact absurd hd List.not_mem_nil

theorem direct_pred {n : Nat} (hn : n < 4) (i : Insn) : ∀ q ∈ i.directWrites, ¬ Covers q.1 q.2
    (regBase (hexRegP0 + n)) := by
  intro q hq
  refine Insn.not_covers_pred hq ?_
  have : n = 0 ∨ n = 1 ∨ n = 2 ∨ n = 3 := by omega
  rcases this with rfl | rfl | rfl | rfl <;> decide

theorem any_loads (is : List Insn) (r : Nat) :
    ((packetDests is).find? (·.reg == r)).any (fun d => d.rw && decide (0 < d.size)) = loads is r := by
  rw [loads]
  cases hf : (packetDests is).find? (·.reg == r) with
  | none => rfl
  | some d =>
    have hpos := (good_packetDests (List.mem_of_find?_eq_some hf)).pos
    simp only [Option.any_some, hpos, decide_true, Bool.and_true]

/-- **Old reads of predicates.**  Operands always read the packet-entry value; the fixed `P0` does exactly when no
earlier assignment has changed it and its first registration loads it. -/
theorem old_preds_read (pc : BitVec 64) (is : List Insn) (s : PhysState) : OldPreds pc is s ↔
    ∀ pre i l t m, i.readsP0 = true → ReadAt pc pre i s is l t (m, .temp (.reg 0 hexRegP0)) →
      let last := (lastOf (LiftAct.puts hexRegP0 0) l).or (lastBehind pc pre s (LiftAct.puts hexRegP0 0))
      (∀ v, last = some v → v = s.reg (regBase hexRegP0)) ∧
        (last = none → loads (pre ++ [i]) hexRegP0 = true ∨ s.temp hexRegP0 0 = s.reg (regBase hexRegP0)) := by
  have hvalue : ∀ {pre i l t m}, ReadAt pc pre i s is l t (m, .temp (.reg 0 hexRegP0)) →
      t.temp hexRegP0 0 = ((lastOf (LiftAct.puts hexRegP0 0) l).or (lastBehind pc pre s (LiftAct.puts hexRegP0 0))).getD
        (if loads (pre ++ [i]) hexRegP0 = true then s.reg (regBase hexRegP0) else s.temp hexRegP0 0) := by
    intro pre i l t m h
    rw [h.temp (by decide) 0, firstLoad_eq _ _ _ _ fun j _ => direct_pred (n := 0) (by decide) j, any_loads]
    refine congrArg _ ?_
    split <;> rfl
  constructor
  · intro hold pre i l t m hi h
    have hfixed := hold.fixed pre i l t m hi h
    rw [hvalue h] at hfixed
    refine ⟨fun v hv => ?_, fun hn => ?_⟩
    · rwa [hv, Option.getD_some] at hfixed
    · rw [hn, Option.getD_none] at hfixed
      by_cases hl : loads (pre ++ [i]) hexRegP0 = true
      · exact .inl hl
      · rw [if_neg hl] at hfixed
        exact .inr hfixed
  · intro hall
    refine ⟨fun pre i l t m n hn h => ?_, fun pre i l t m hi h => ?_⟩
    · obtain ⟨e, l', hlog, -⟩ := h.log
      rw [(reg_log single_body _ _).2 l t e l' hlog,
        (lastOf_log_eq_none (fun x hx s => writes_eq_none (direct_pred hn i) hx s) _).2 l t e l' hlog, Option.getD_none,
        entering, liftBehind, reg_run_decls, bodyState, reg_packetBody_of_direct _ _ _ _ fun j _ => direct_pred hn j]
    · obtain ⟨hsame, hload⟩ := hall pre i l t m hi h
      rw [hvalue h]
      cases hlast : (lastOf (LiftAct.puts hexRegP0 0) l).or (lastBehind pc pre s (LiftAct.puts hexRegP0 0)) with
      | some v => exact hsame v hlast
      | none =>
        rcases hload hlast with hl | hstale
        · rw [if_pos hl]
          rfl
        · rw [hstale, ite_self]
          rfl

/-- `p0=cmp.eq(r1,r2)`, and the duplex of `if (p0) r3=#0` and `if (p0) r4=#0`. -/
def compareP0 : Insn := Opcodes.c2Cmpeq.insn [0, 1, 2] [] (by decide)
def clearIfP0 : Insn := Opcodes.sa1Clrt.insn [3] [] (by decide)
def clearAlso : Insn := Opcodes.sa1Clrt.insn [4] [] (by decide)

/-- `p0` is false, `r1` and `r2` are equal, and `r3` is 9. -/
def falseP0State : PhysState := ⟨fun a => if a = 12 then 9 else 0, fun _ _ => 0, fun _ => 0⟩

/-- The sub-instruction tests what the compare of its packet assigns, and clears `r3`. -/
theorem old_p0_sees_compare : ¬ OldPreds 0 [compareP0, clearIfP0, clearAlso] falseP0State ∧
    (packetState .added 0 [compareP0, clearIfP0, clearAlso] falseP0State).reg 12 = 0 := by
  refine ⟨fun hold => ?_, by decide +kernel⟩
  have hread : ReadAt 0 [compareP0] clearIfP0 falseP0State [compareP0, clearIfP0, clearAlso] []
      (entering 0 [compareP0] clearIfP0 falseP0State) (1, .temp (.reg 0 hexRegP0)) :=
    ⟨⟨[clearAlso], rfl⟩, _, _, rfl, List.mem_cons_self⟩
  have hfixed := hold.fixed _ _ _ _ _ (by decide) hread
  have htemp : (entering 0 [compareP0] clearIfP0 falseP0State).temp hexRegP0 0 = 1 := by decide +kernel
  rw [htemp] at hfixed
  exact absurd hfixed (by decide)

end OldPreds

/-- A register that an endloop may see updated. -/
def isLoopReg (r : Nat) : Bool := [hexRegLc0, hexRegLc1, hexRegSa0, hexRegSa1, hexRegUsrLpcfg].contains r

/-- Every read of a general or control register gives the packet-entry value: in place, through the copy of a pair, of
an operand that is read before its own instruction assigns it, and of the link register by a return that stands for a
jump to it. -/
structure ParallelReads (pc : BitVec 64) (is : List Insn) (s : PhysState) : Prop where
  register : ∀ pre i l t m r, ReadAt pc pre i s is l t (m, .hex r) → ¬ (i.opcode.endsLoop = true ∧ isLoopReg r = true) →
    ∀ a, Covers m r a → t.reg a = s.reg a
  pair : ∀ pre i l t m r, ReadAt pc pre i s is l t (m, .temp (.reg 1 r)) →
    ∀ k < 8, t.temp (Temp.reg 1 r).index k = s.reg (regBase r + k)
  initial : ∀ pre i l t m r x n, (x, .dest true n r) ∈ i.places → r < 64 →
    ReadAt pc pre i s is l t (m, .temp (.reg 0 r)) →
    ∀ k < m, lastOf (LiftAct.puts r k) l = none → t.temp r k = s.reg (regBase r + k)
  returned : ∀ pre i e, SentBy pc pre i s is e → (4, .hex hexRegLr) ∈ e.reads →
    i.control pc pre.length = .ret (.register 4 (.hex hexRegLr)) → ∀ h a, Covers 4 hexRegLr a →
      (packetState h pc is s).reg a = s.reg a

section ParallelReads

variable {pc : BitVec 64} {is pre : List Insn} {i : Insn} {s t : PhysState} {l : BodyLog} {k m r ss : Nat}
  {ctx : PacketContext}

/-- What a behaviour reads from a temporary, or writes to it, it does by a name, at the size of that. -/
theorem body_name {pc : BitVec 64} {i : Insn} {n : Nat} {ctx : PacketContext} {e : Step} {q : Nat × LReg Temp}
    {u : Temp}
    (hmem : e.elim (· ∈ (lift pc i n ctx).body.acts) (· ∈ (lift pc i n ctx).body.tests))
      (hq : q ∈ e.reads ∨ q ∈ e.writes)
    (hu : q.2 = .temp u) : i.opcode.supported = true ∧ ∃ x, i.resolve n x = .temp u ∧ q.1 = x.size := by
  by_cases hs : i.opcode.supported = true
  · refine ⟨hs, ?_⟩
    have hname : ∀ {g : GExpr} {imms : ImmLetter → BitVec 32}, (∀ p ∈ g.reads, Sized p) →
        q ∈ (g.subst (i.resolve n) (resolveConst pc imms) (resolveGp i.extensionValid)).reads →
          ∃ x, i.resolve n x = .temp u ∧ q.1 = x.size := by
      intro g imms hg hqg
      rcases reads_subst (gp_reads i.extensionValid) hqg with h | ⟨p, hp, rfl⟩
      · exact absurd hu (h u)
      · exact ⟨p.2, hu, hg p hp⟩
    rw [lift, if_pos hs] at hmem
    cases e with
    | inl a =>
      cases a with
      | branch k d => exact hq.elim (absurd · List.not_mem_nil) (absurd · List.not_mem_nil)
      | il x =>
        obtain ⟨it, hit, imms, him⟩ := Block.mem_acts_instantiate _ _ _ _ hmem
        cases it with
        | branch k d => simp [LiftEnv.item] at him
        | pcalign k => simp [LiftEnv.item] at him
        | insn y =>
          have hsized := i.semantics_sized.1 y hit
          simp only [LiftEnv.item, LiftEnv.insn, i.env_declared, Option.some.injEq, LiftAct.il.injEq] at him
          subst him
          rcases hq with hq | hq
          · simp only [Step.reads, exprs_subst, List.mem_flatMap, List.mem_map] at hq
            obtain ⟨_, ⟨g, hg, rfl⟩, hqg⟩ := hq
            exact hname (hsized.1 g hg) hqg
          · rw [Step.writes, IlInsn.dests_subst] at hq
            obtain ⟨f, hf, rfl⟩ := List.mem_map.1 hq
            exact ⟨f.2, hu, hsized.2.1 f hf⟩
    | inr c =>
      obtain ⟨g, hg, imms, rfl⟩ := Block.mem_tests_instantiate _ _ _ _ hmem
      rcases hq with hq | hq
      · simp only [LiftEnv.expr, i.env_declared] at hq
        exact hname (i.semantics_sized.2 g hg) hq
      · exact absurd hq List.not_mem_nil
  · rw [lift, if_neg hs] at hmem
    cases e with
    | inl a =>
      obtain rfl : a = .il .undefined := by simpa [Block.acts] using hmem
      exact hq.elim (absurd · List.not_mem_nil) (absurd · List.not_mem_nil)
    | inr c => exact absurd hmem List.not_mem_nil

theorem mem_behaviourLog {x : PhysState × Step} (hx : x ∈ behaviourLog pc pre i s) :
    x.2.elim (· ∈ (liftBehind pc pre i).body.acts) (· ∈ (liftBehind pc pre i).body.tests) :=
  Block.mem_path (Block.log_mem_paths bodySem _ (entering pc pre i s)) x.2 (List.mem_map_of_mem hx)

theorem ReadAt.name (h : ReadAt pc pre i s is l t (m, .temp (.reg ss r))) :
    i.opcode.supported = true ∧ ∃ x, i.resolve pre.length x = .temp (.reg ss r) ∧ m = x.size := by
  obtain ⟨e, l', hlog, hread⟩ := h.log
  exact body_name (mem_behaviourLog (x := (t, e)) (by rw [hlog]; simp)) (.inl hread) rfl

/-- The copy of a pair holds the pair when the behaviour begins. -/
theorem temp_declCode_pair {q : Nat} (hk : k < 8) :
    ∀ (ps : List (RegName × Place)) (ctx : PacketContext) (s : PhysState),
    (∀ p ∈ ps, match p.2 with
      | .plain _ => True
      | .pair q => Fits 8 q
      | .dest _ m q => Fits m q ∧ q < numHexRegs) →
    (execAll ((declCode ps ctx).map (IlInsn.map LReg.index)) s).temp (Temp.reg 1 q).index k =
      if ∃ p ∈ ps, p.2 = .pair q then s.reg (regBase q + k) else s.temp (Temp.reg 1 q).index k
  | [], ctx, s, _ => by simp [declCode, execAll]
  | (name, p) :: ps, ctx, s, hfit => by
    have ih := temp_declCode_pair (q := q) hk ps
    have hps := fun p hp => hfit p (List.mem_cons_of_mem _ hp)
    have hmem : (∃ x ∈ (name, p) :: ps, x.2 = .pair q) ↔ p = .pair q ∨ ∃ x ∈ ps, x.2 = .pair q := by
      simp only [List.mem_cons, exists_eq_or_imp]
    cases p with
    | plain r =>
      simp only [hmem, reduceCtorEq, false_or]
      exact ih ctx s hps
    | pair r =>
      have hf : Fits 8 r := hfit (name, .pair r) List.mem_cons_self
      rw [declCode, List.map_cons, execAll, List.foldl_cons, ← execAll, ih ctx _ hps, reg_copyToTemp hf]
      by_cases hrq : r = q
      · subst hrq
        rw [temp_copyToTemp hf 1 s hk, ite_self, if_pos (hmem.2 (.inl rfl))]
      · have hne : (Temp.reg 1 q).index ≠ (Temp.reg 1 r).index := by
          simp only [Temp.index]
          omega
        rw [temp_copyToTemp_ne hf hne]
        simp only [hmem, Place.pair.injEq, hrq, false_or]
    | dest rw m r =>
      obtain ⟨hf, hr⟩ : Fits m r ∧ r < numHexRegs := hfit (name, .dest rw m r) List.mem_cons_self
      have hne : (Temp.reg 1 q).index ≠ (Temp.reg 0 r).index := by
        simp only [Temp.index]
        omega
      have hcode : (ctx.addDestReg rw m r).2 = [] ∨ (ctx.addDestReg rw m r).2 = [copyToTemp m r 0] := by
        unfold PacketContext.addDestReg
        split
        · exact .inl rfl
        · cases rw with
          | true => exact .inr rfl
          | false => exact .inl rfl
      have hstep : (execAll ((ctx.addDestReg rw m r).2.map (IlInsn.map LReg.index)) s).reg = s.reg ∧
          (execAll ((ctx.addDestReg rw m r).2.map (IlInsn.map LReg.index)) s).temp (Temp.reg 1 q).index =
            s.temp (Temp.reg 1 q).index := by
        rcases hcode with h | h
        · rw [h]
          exact ⟨rfl, rfl⟩
        · rw [h]
          exact ⟨reg_copyToTemp hf s, temp_copyToTemp_ne hf hne s⟩
      rw [declCode, List.map_append, execAll, List.foldl_append, ← execAll, ← execAll, ih _ _ hps, hstep.1, hstep.2]
      simp only [hmem, reduceCtorEq, false_or]

theorem dests_places : ∀ p ∈ i.places, match p.2 with
    | .plain _ => True
    | .pair q => Fits 8 q
    | .dest _ m q => Fits m q ∧ q < numHexRegs := by
  rintro ⟨x, p⟩ hp
  have hfit := fits_places (i := i) _ hp
  cases p with
  | plain q => trivial
  | pair q => exact hfit
  | dest rw n q => exact ⟨hfit, (Insn.good_of_place hp).reg_lt⟩

theorem temp_entering_pair (hs : i.opcode.supported = true) {x : RegName} (hplace : (x, .pair r) ∈ i.places)
    (hk : k < 8) :
    (entering pc pre i s).temp (Temp.reg 1 r).index k = (bodyState pc pre s).reg (regBase r + k) := by
  rw [entering, run_decls, liftBehind, lift, if_pos hs, i.declared_eq]
  dsimp only
  rw [code_foldl, List.nil_append, temp_declCode_pair hk _ _ _ dests_places, if_pos ⟨_, hplace, rfl⟩]

/-- **The copy of a pair**: what the behaviour itself last put at its index, else the pair as the instructions before
left it. -/
theorem ReadAt.temp_pair (h : ReadAt pc pre i s is l t (m, .temp (.reg 1 r))) (hk : k < 8) :
    t.temp (Temp.reg 1 r).index k = ((lastOf (LiftAct.puts (Temp.reg 1 r).index k) l).or
      (lastBehind pc pre s (LiftAct.writes (regBase r + k)))).getD (s.reg (regBase r + k)) := by
  obtain ⟨hs, x, hx, -⟩ := h.name
  obtain ⟨q, hq, hplace⟩ := Insn.place_of_pair hx rfl
  cases hq
  obtain ⟨e, l', hlog, -⟩ := h.log
  rw [(temp_log single_body _ k _).2 l t e l' hlog, temp_entering_pair hs hplace hk, bodyState, reg_packetBody_writes,
    lastBehind]
  cases lastOf (LiftAct.puts (Temp.reg 1 r).index k) l <;> rfl

/-- What was last given is the packet-entry value, or nothing was given. -/
theorem getD_eq_iff {o : Option (BitVec 8)} {v : BitVec 8} : o.getD v = v ↔ ∀ w, o = some w → w = v := by
  cases o with
  | none => simp
  | some w => simp

/-- **Parallel reads.**  A register is read at its packet-entry value exactly when nothing has written it directly with
another one; the copy of a pair, when in addition no scratch variable was put at its index; the initial value of a
read-write operand, when no earlier instruction has changed it and its first registration loads it; the link register
of a return, when nothing that may be copied back over it was assigned, or started with, another one. -/
theorem parallel_reads (pc : BitVec 64) (is : List Insn) (s : PhysState) : ParallelReads pc is s ↔
    (∀ pre i l t m r, ReadAt pc pre i s is l t (m, .hex r) → ¬ (i.opcode.endsLoop = true ∧ isLoopReg r = true) →
      ∀ a, Covers m r a → ∀ v, (lastOf (LiftAct.writes a) l).or (lastBehind pc pre s (LiftAct.writes a)) = some v →
        v = s.reg a) ∧
    (∀ pre i l t m r, ReadAt pc pre i s is l t (m, .temp (.reg 1 r)) → ∀ k < 8, ∀ v,
      (lastOf (LiftAct.puts (Temp.reg 1 r).index k) l).or
        (lastBehind pc pre s (LiftAct.writes (regBase r + k))) = some v →
        v = s.reg (regBase r + k)) ∧
    (∀ pre i l t m r x n, (x, .dest true n r) ∈ i.places → r < 64 → ReadAt pc pre i s is l t (m, .temp (.reg 0 r)) →
      ∀ k < m, lastOf (LiftAct.puts r k) l = none →
        let first := (lastBehind pc pre s (LiftAct.puts r k)).or (firstLoad pc r k (pre ++ [i]) 0 .empty s)
        (∀ v, first = some v → v = s.reg (regBase r + k)) ∧ (first = none → s.temp r k = s.reg (regBase r + k))) ∧
    (∀ pre i e, SentBy pc pre i s is e → (4, .hex hexRegLr) ∈ e.reads →
      i.control pc pre.length = .ret (.register 4 (.hex hexRegLr)) → ∀ a, Covers 4 hexRegLr a → ∀ c ∈ copies pc is a,
        (∀ v, lastVia pc is s a (c.map DestReg.reg) = some v → v = s.reg a) ∧
          (lastVia pc is s a (c.map DestReg.reg) = none → started pc is s a c = s.reg a)) := by
  have hinitial : ∀ {pre i l t m r k}, ReadAt pc pre i s is l t (m, .temp (.reg 0 r)) → r < 64 →
      lastOf (LiftAct.puts r k) l = none → t.temp r k = ((lastBehind pc pre s (LiftAct.puts r k)).or
        (firstLoad pc r k (pre ++ [i]) 0 .empty s)).getD (s.temp r k) := by
    intro pre i l t m r k h hr hl
    rw [h.temp (Nat.lt_trans hr (by decide)) k, hl, Option.none_or]
    cases lastBehind pc pre s (LiftAct.puts r k) <;> rfl
  have hcopy : ∀ {a c}, copyByte pc is s a c = s.reg a ↔
      (∀ v, lastVia pc is s a (c.map DestReg.reg) = some v → v = s.reg a) ∧
        (lastVia pc is s a (c.map DestReg.reg) = none → started pc is s a c = s.reg a) := by
    intro a c
    rw [copyByte]
    cases lastVia pc is s a (c.map DestReg.reg) <;> simp
  constructor
  · intro hpar
    refine ⟨fun pre i l t m r h hloop a ha => ?_, fun pre i l t m r h k hk => ?_,
      fun pre i l t m r x n hp hr h k hk hl => ?_, fun pre i e h hlr hret a ha c hc => ?_⟩
    · rw [← getD_eq_iff, ← h.reg]
      exact hpar.register pre i l t m r h hloop a ha
    · rw [← getD_eq_iff, ← h.temp_pair hk]
      exact hpar.pair pre i l t m r h k hk
    · have hval := hpar.initial pre i l t m r x n hp hr h k hk hl
      rw [hinitial h hr hl] at hval
      refine ⟨fun v hv => ?_, fun hn => ?_⟩
      · rwa [hv] at hval
      · rwa [hn] at hval
    · obtain ⟨g, hlast⟩ := exists_lastCopied hc
      rw [← hcopy, ← hlast, ← reg_packetState_eq]
      exact hpar.returned pre i e h hlr hret g a ha
  · rintro ⟨hreg, hpair, hinit, hlink⟩
    refine ⟨fun pre i l t m r h hloop a ha => ?_, fun pre i l t m r h k hk => ?_,
      fun pre i l t m r x n hp hr h k hk hl => ?_, fun pre i e h hlr hret g a ha => ?_⟩
    · rw [h.reg, getD_eq_iff]
      exact hreg pre i l t m r h hloop a ha
    · rw [h.temp_pair hk, getD_eq_iff]
      exact hpair pre i l t m r h k hk
    · obtain ⟨hsame, hstale⟩ := hinit pre i l t m r x n hp hr h k hk hl
      rw [hinitial h hr hl]
      cases hfirst : (lastBehind pc pre s (LiftAct.puts r k)).or (firstLoad pc r k (pre ++ [i]) 0 .empty s) with
      | some v => exact hsame v hfirst
      | none => exact hstale hfirst
    · rw [reg_packetState_eq]
      exact hcopy.2 (hlink pre i e h hlr hret a ha _ (lastCopied_mem g pc is a))

/-- `r31:30=deallocframe(r20):raw` and `r0=add(r29,#4)`. -/
def freeFrame : Insn := Opcodes.l2Deallocframe.insn [30, 20] [] (by decide)
def addToSp : Insn := Opcodes.a2Addi.insn [0, 29] [4] (by decide)

/-- `r31=add(r0,#4)` and `jumpr r31`. -/
def setLr : Insn := Opcodes.a2Addi.insn [31, 0] [4] (by decide)
def jumpLr : Insn := Opcodes.j2Jumpr.insn [31] [] (by decide)

/-- The addition reads the stack pointer that the deallocation has moved by 8; and the jump leaves for the `r31` that
the addition beside it has assigned. -/
theorem moved_sp_read :
    (¬ ParallelReads 0 [freeFrame, addToSp] falseP0State ∧
      (packetState .added 0 [freeFrame, addToSp] falseP0State).reg 0 = 12) ∧
    ¬ ParallelReads 0 [setLr, jumpLr] falseP0State ∧
      (packetState .added 0 [setLr, jumpLr] falseP0State).reg (regBase hexRegLr) = 4 := by
  have hnew : (packetState .added 0 [setLr, jumpLr] falseP0State).reg (regBase hexRegLr) = 4 := by decide +kernel
  refine ⟨⟨fun hpar => ?_, by decide +kernel⟩, fun hpar => ?_, hnew⟩
  · have hread : ReadAt 0 [freeFrame] addToSp falseP0State [freeFrame, addToSp] []
        (entering 0 [freeFrame] addToSp falseP0State) (4, .hex hexRegSp) :=
      ⟨⟨[], rfl⟩, _, _, rfl, List.mem_cons_self⟩
    have hval := hpar.register _ _ _ _ _ _ hread (by decide) 116 (by decide)
    have hsp : (entering 0 [freeFrame] addToSp falseP0State).reg 116 = 8 := by decide +kernel
    rw [hsp] at hval
    exact absurd hval (by decide)
  · have hsent : SentBy 0 [setLr] jumpLr falseP0State [setLr, jumpLr] (.register 4 (.hex hexRegLr)) :=
      ⟨⟨[], rfl⟩, ⟨_, .jump, List.mem_cons_of_mem _ List.mem_cons_self⟩, rfl⟩
    have hval := hpar.returned _ _ _ hsent List.mem_cons_self rfl .added (regBase hexRegLr) (by decide)
    rw [hnew] at hval
    exact absurd hval (by decide)

end ParallelReads
end Hex
