import BinjaHexagon.CondLines
import BinjaHexagon.Exec
/-!
# CondInterp — the statement trees run as they stand

`Stmt.interp` is a structured interpreter: a conditional tests its condition and runs one of its parts.  The text the
transformer lowers a tree to executes the same things.  `fPCALIGN` is the exception: it is written out as a C++
statement between the others, so it aligns the immediate for the text behind it, whichever part runs.
-/
namespace Hex

open Flow (Block Runs Halts Cfg At marks uses step_end)

/-- When `fPCALIGN` acts: where the C macro does, or when the instruction is lifted. -/
inductive AlignTime where
  | running | lifting
  deriving Repr, DecidableEq

/-- A tree being run: the immediates, the machine, and everything executed so far. -/
structure Running where
  imms : ImmLetter → BitVec 32
  st : PhysState
  log : BodyLog

/-- The immediates behind a statement, all of its text taken. -/
def Stmt.aligned : Stmt → (ImmLetter → BitVec 32) → ImmLetter → BitVec 32
  | .seq s t, imms => t.aligned (s.aligned imms)
  | .ifThen _ t, imms => t.aligned imms
  | .ifElse _ t f, imms => f.aligned (t.aligned imms)
  | .fPcalign l, imms => Function.update imms l (imms l &&& ~~~3)
  | _, imms => imms

namespace Running

/-- An assignment, a memory access, a branch statement or `fPCALIGN`. -/
def act (E : LiftEnv) (x : Running) (i : GenItem) : Running :=
  let k := E.item x.imms i
  match k.2 with
  | some a => ⟨k.1, bodySem.exec a x.st, x.log ++ [(x.st, .inl a)]⟩
  | none => { x with imms := k.1 }

def holds (E : LiftEnv) (x : Running) (c : GExpr) : Bool := bodySem.test (E.expr x.imms c) x.st

/-- The condition has been read. -/
def tested (E : LiftEnv) (x : Running) (c : GExpr) : Running :=
  { x with log := x.log ++ [(x.st, .inr (E.expr x.imms c))] }

/-- Text that is not run. -/
def past (time : AlignTime) (s : Stmt) (x : Running) : Running :=
  match time with
  | .running => x
  | .lifting => { x with imms := s.aligned x.imms }

end Running

/-- The structured interpreter. -/
def Stmt.interp (E : LiftEnv) (condJ : Bool) (time : AlignTime) : Stmt → Running → Option Running
  | .seq s t, x => (s.interp E condJ time x).bind (t.interp E condJ time)
  | .ifThen c t, x => do
    let v ← c.transform
    if x.holds E v.expr then t.interp E condJ time (x.tested E v.expr)
    else some ((x.tested E v.expr).past time t)
  | .ifElse c t f, x => do
    let v ← c.transform
    if x.holds E v.expr then (t.interp E condJ time (x.tested E v.expr)).map (·.past time f)
    else f.interp E condJ time ((x.tested E v.expr).past time t)
  | s, x => (s.transform condJ).map fun b => b.acts.foldl (Running.act E) x

/-- Items one after the other, none of which changes an immediate. -/
inductive Plain : GBlock → Prop where
  | nil : Plain .nil
  | insn (i : IlInsn RegName ConstName) : Plain (.act (.insn i) .nil)
  | branch (k : BranchKind) (d : GExpr) : Plain (.act (.branch k d) .nil)
  | append {b k : GBlock} (hb : Plain b) (hk : Plain k) : Plain (b ++ k)

/-- A statement with no parts, and no `fPCALIGN`. -/
def Stmt.isPlain : Stmt → Bool
  | .seq _ _ | .ifThen _ _ | .ifElse _ _ _ | .fPcalign _ => false
  | _ => true

theorem Stmt.byParts {P : Stmt → Prop} (plain : ∀ s, s.isPlain = true → P s) (seq : ∀ s t, P s → P t → P (.seq s t))
    (ifThen : ∀ c t, P t → P (.ifThen c t)) (ifElse : ∀ c t f, P t → P f → P (.ifElse c t f))
    (fPcalign : ∀ l, P (.fPcalign l)) (s : Stmt) : P s := by
  induction s with
  | seq s t hs ht => exact seq s t hs ht
  | ifThen c t ht => exact ifThen c t ht
  | ifElse c t f ht hf => exact ifElse c t f ht hf
  | fPcalign l => exact fPcalign l
  | _ => exact plain _ rfl

theorem Stmt.aligned_plain {s : Stmt} (h : s.isPlain = true) (imms : ImmLetter → BitVec 32) :
    s.aligned imms = imms := by
  cases s with
  | seq | ifThen | ifElse | fPcalign => cases h
  | _ => rfl

theorem Stmt.interp_plain {s : Stmt} (h : s.isPlain = true) (E : LiftEnv) (condJ : Bool) (time : AlignTime)
    (x : Running) : s.interp E condJ time x = (s.transform condJ).map fun b => b.acts.foldl (Running.act E) x := by
  cases s with
  | seq | ifThen | ifElse | fPcalign => cases h
  | _ => rfl

theorem Plain.assg {l v : IlVal} {b : GBlock} (h : Hex.assg l v = some b) : Plain b := by
  simp only [Hex.assg, bind, Option.bind_eq_some_iff] at h
  obtain ⟨r, -, h⟩ := h
  cases h
  exact .insn _

theorem Plain.macroBranch {condJ : Bool} {loc : IlVal} {typ : BranchType} {b : GBlock}
    (h : Hex.macroBranch condJ loc typ = some b) : Plain b := by
  have htaken : Plain (if condJ then setRegister 1 .branchTaken (.const 1 1) else .nil) := by
    by_cases hc : condJ
    · rw [if_pos hc]; exact .insn _
    · rw [if_neg hc]; exact .nil
  have hdest : Plain (setRegister 4 .branchrDest loc) := .insn _
  cases typ with
  | jump | jumpnew | call | ret => cases h; exact .append htaken (.branch _ _)
  | jumpr | callr => cases h; exact .append (.append htaken hdest) (.branch _ _)
  | loopend0 | loopend1 =>
    cases condJ with
    | false => cases h
    | true => cases h; exact .append (.append (.insn _) hdest) (.branch _ _)

theorem transform_plain {condJ : Bool} : ∀ {s : Stmt} {b : GBlock}, s.isPlain = true → s.transform condJ = some b →
    Plain b
  | .skip, b, _, h | .fImmext _, b, _, h => by cases h; exact .nil
  | .assg _ _, b, _, h | .assgBinop _ _ _, b, _, h => by
    simp only [Stmt.transform, bind, Option.bind_eq_some_iff] at h
    obtain ⟨v, -, h⟩ := h
    exact .assg h
  | .fBranch _ _, b, _, h | .fJumpr _ _ _, b, _, h => by
    simp only [Stmt.transform, bind, Option.bind_eq_some_iff] at h
    obtain ⟨v, -, h⟩ := h
    exact .macroBranch h
  | .fTrap, b, _, h | .fBreak, b, _, h => by cases h; exact .insn _
  | .fStore _ _, b, _, h => by
    simp only [Stmt.transform, bind, Option.bind_eq_some_iff] at h
    obtain ⟨v, -, h⟩ := h
    cases h
    exact .insn _
  | .fStoreLocked _ _ _, b, _, h => by
    simp only [Stmt.transform, bind, Option.bind_eq_some_iff] at h
    obtain ⟨v, -, r, -, h⟩ := h
    cases h
    exact .append (.insn _) (.insn _)
  | .fLoad _ _ _, b, _, h => .assg h
  | .fWriteFp _, b, _, h | .fWriteLr _, b, _, h | .fWriteSp _, b, _, h | .fSetLpcfg _, b, _, h
  | .fWriteP _ _, b, _, h => by
    simp only [Stmt.transform, bind, Option.bind_eq_some_iff] at h
    obtain ⟨v, -, h⟩ := h
    cases h
    exact .insn _
  | .fWriteLoopRegs _ _ _, b, _, h => by
    simp only [Stmt.transform, bind, Option.bind_eq_some_iff] at h
    obtain ⟨v, -, w, -, h⟩ := h
    split at h <;> cases h
    · exact .append (.insn _) (.insn _)
    · exact .append (.insn _) (.insn _)
  | .fWriteLc _ _, b, _, h => by
    simp only [Stmt.transform, bind, Option.bind_eq_some_iff] at h
    obtain ⟨v, -, h⟩ := h
    split at h <;> cases h
    · exact .insn _
    · exact .insn _
  | .fSethalf _ _ _, b, _, h | .fSetword _ _ _, b, _, h => by
    simp only [Stmt.transform, bind, Option.bind_eq_some_iff] at h
    obtain ⟨v, -, r, -, h⟩ := h
    split at h <;> cases h
    exact .insn _

variable (E : LiftEnv)

/-- What a block does to a running tree when it is instantiated there. -/
def Running.through (b : GBlock) (x : Running) : Running :=
  let i := b.instantiate E.item E.expr x.imms
  ⟨i.1, i.2.run bodySem x.st, x.log ++ i.2.log bodySem x.st⟩

theorem Running.through_append (b k : GBlock) (x : Running) : x.through E (b ++ k) = (x.through E b).through E k := by
  simp only [through, Block.instantiate_append, Block.run_append, Block.log_append, List.append_assoc]

theorem Plain.through {b : GBlock} (h : Plain b) (x : Running) :
    b.acts.foldl (Running.act E) x = x.through E b ∧ (x.through E b).imms = x.imms := by
  induction h generalizing x with
  | nil => exact ⟨by simp [Block.acts, Running.through, Block.instantiate, Block.run, Block.log], rfl⟩
  | insn i => exact ⟨rfl, rfl⟩
  | branch k d => exact ⟨rfl, rfl⟩
  | append hb hk ihb ihk =>
    rw [Block.acts_append, List.foldl_append, (ihb x).1, Running.through_append, (ihk _).1, (ihk _).2, (ihb x).2]
    exact ⟨rfl, rfl⟩

theorem Running.through_ifStmt (c : GExpr) (t f : GBlock) (x : Running) :
    x.through E (ifStmt c t f) =
      if x.holds E c then { (x.tested E c).through E t with imms := (((x.tested E c).through E t).through E f).imms }
      else { (x.tested E c) with imms := ((x.tested E c).through E t).imms }.through E f := by
  have h : x.through E (ifStmt c t f) = x.through E (.ifElse c t f .nil) := by
    by_cases hf : f = .nil
    · subst hf
      simp [ifStmt, through, Block.instantiate, Block.run, Block.log]
    · unfold ifStmt
      split
      · contradiction
      · rfl
  rw [h]
  by_cases hc : x.holds E c
  · simp [through, Block.instantiate, Block.run, Block.log, tested, hc,
      show bodySem.test (E.expr x.imms c) x.st = true from hc]
  · simp [through, Block.instantiate, Block.run, Block.log, tested, hc,
      show bodySem.test (E.expr x.imms c) x.st = false from by simpa [holds] using hc]

variable {condJ : Bool}

/-- **Behind a statement the immediates are aligned as far as its text goes**, whatever of it ran. -/
theorem through_aligned (s : Stmt) : ∀ {b : GBlock}, s.transform condJ = some b →
    ∀ x : Running, (x.through E b).imms = s.aligned x.imms := by
  induction s using Stmt.byParts with
  | plain s hp =>
    intro b h x
    rw [((transform_plain hp h).through E x).2, Stmt.aligned_plain hp]
  | seq s t ihs iht =>
    intro b h x
    simp only [Stmt.transform, bind, Option.bind_eq_some_iff] at h
    obtain ⟨bs, hs, bt, ht, h⟩ := h
    cases h
    rw [Running.through_append, iht ht, ihs hs, Stmt.aligned]
  | ifThen c t iht =>
    intro b h x
    simp only [Stmt.transform, bind, Option.bind_eq_some_iff] at h
    obtain ⟨v, -, bt, ht, h⟩ := h
    split at h <;> cases h
    rw [Running.through_ifStmt, Stmt.aligned]
    split
    · exact iht ht (x.tested E v.expr)
    · exact iht ht (x.tested E v.expr)
  | ifElse c t f iht ihf =>
    intro b h x
    simp only [Stmt.transform, bind, Option.bind_eq_some_iff] at h
    obtain ⟨v, -, bt, ht, bf, hf, h⟩ := h
    split at h <;> cases h
    have hx : ((x.tested E v.expr).through E bt).imms = t.aligned x.imms := iht ht (x.tested E v.expr)
    rw [Running.through_ifStmt, Stmt.aligned]
    split
    · dsimp only
      rw [ihf hf, hx]
    · rw [ihf hf]
      dsimp only
      rw [hx]
  | fPcalign l =>
    intro b h x
    cases h
    rfl

/-- **The interpreter runs what the tree is transformed into**, `fPCALIGN` acting when the instruction is lifted. -/
theorem interp_lifting (s : Stmt) : ∀ {b : GBlock}, s.transform condJ = some b →
    ∀ x : Running, s.interp E condJ .lifting x = some (x.through E b) := by
  induction s using Stmt.byParts with
  | plain s hp =>
    intro b h x
    rw [Stmt.interp_plain hp, h, Option.map_some, ((transform_plain hp h).through E x).1]
  | seq s t ihs iht =>
    intro b h x
    simp only [Stmt.transform, bind, Option.bind_eq_some_iff] at h
    obtain ⟨bs, hs, bt, ht, h⟩ := h
    cases h
    rw [Stmt.interp, ihs hs, Option.bind_some, iht ht, Running.through_append]
  | ifThen c t iht =>
    intro b h x
    simp only [Stmt.transform, bind, Option.bind_eq_some_iff] at h
    obtain ⟨v, hv, bt, ht, h⟩ := h
    split at h <;> cases h
    have hskip := through_aligned E t ht (x.tested E v.expr)
    rw [Stmt.interp, hv, Running.through_ifStmt]
    by_cases hc : x.holds E v.expr
    · simp only [bind, Option.bind_some, if_pos hc, iht ht]
      rfl
    · simp only [bind, Option.bind_some, if_neg hc, Running.past, ← hskip]
      simp [Running.through, Block.instantiate, Block.run, Block.log]
  | ifElse c t f iht ihf =>
    intro b h x
    simp only [Stmt.transform, bind, Option.bind_eq_some_iff] at h
    obtain ⟨v, hv, bt, ht, bf, hf, h⟩ := h
    split at h <;> cases h
    have hskip := through_aligned E t ht (x.tested E v.expr)
    rw [Stmt.interp, hv, Running.through_ifStmt]
    by_cases hc : x.holds E v.expr
    · have htail := through_aligned E f hf ((x.tested E v.expr).through E bt)
      simp only [bind, Option.bind_some, if_pos hc, iht ht, Option.map_some, Running.past, ← htail]
    · simp only [bind, Option.bind_some, if_neg hc, Running.past, ← hskip, ihf hf]
  | fPcalign l =>
    intro b h x
    cases h
    simp [Stmt.interp, Stmt.transform, Block.acts, Running.act, Running.through, LiftEnv.item, Block.instantiate,
      Block.run, Block.log]

/-- What is left of a log when the tree is written out: the branch statements are not. -/
def BodyLog.emitted (l : BodyLog) : Flow.Log EmitAct (LExpr Nat) PhysState :=
  l.filterMap (Block.entry LiftAct.emit (IlExpr.map LReg.index))

/-- What `out`, the text of `s` after it has run, owes to the structured interpreter. -/
structure Lowered (time : AlignTime) (E : LiftEnv) (condJ : Bool) (s : Stmt) (imms : ImmLetter → BitVec 32)
    (out : LineState) : Prop where
  closed : out.scopes = []
  marked : ∀ l ∈ uses out.code, (marks out.code).count l = 1
  /-- By itself the code halts behind its last instruction, having executed what the interpreter executes. -/
  alone : ∀ callee st, ∃ r, s.interp E condJ time ⟨imms, st, []⟩ = some r ∧ ∀ c,
    Halts (emitSem callee) out.code ⟨0, st, []⟩ c ↔ c = ⟨out.code.length, r.st, r.log.emitted⟩
  /-- So it does wherever it stands in the function. -/
  placed : ∀ callee st code k L, (marks code).Nodup → At code k out.code →
    ∃ r, s.interp E condJ time ⟨imms, st, []⟩ = some r ∧
      Runs (emitSem callee) code ⟨k, st, L⟩ ⟨k + out.code.length, r.st, L ++ r.log.emitted⟩
  /-- `BRANCH_TAKEN` is raised where the interpreter reaches a branch statement. -/
  flag : condJ = true → (∀ p ∈ E.regs, p.2.Operand) → ∀ st, ∃ r, s.interp E condJ time ⟨imms, st, []⟩ = some r ∧
    flagSet E.insnNum r.st = (flagSet E.insnNum st || reachedBranch r.log)

/-- The code of a tree's text, run from its first instruction. -/
theorem emitted_run (b : LiftBlock) (callee : BitVec 64 → PhysState → PhysState) (st : PhysState) :
    (LiftBlock.emitted b).run (emitSem callee) st = b.run bodySem st ∧
      (LiftBlock.emitted b).log (emitSem callee) st = BodyLog.emitted (b.log bodySem st) := by
  rw [LiftBlock.emitted, Block.run_filterMap, Block.log_filterMap, emitSem_pull]
  exact ⟨rfl, rfl⟩

/-- The code of a block by itself runs to its end and halts there. -/
theorem emitted_halts (b : LiftBlock) (n : Nat) (callee : BitVec 64 → PhysState → PhysState) (st : PhysState) :
    Halts (emitSem callee) ((LiftBlock.emitted b).emit Transfer n).1 ⟨0, st, []⟩
      ⟨((LiftBlock.emitted b).emit Transfer n).1.length, b.run bodySem st, BodyLog.emitted (b.log bodySem st)⟩ := by
  have hrun := emitted_run b callee st
  have h := Block.runs_emit (emitSem callee) (Block.nodup_marks_emit Transfer (LiftBlock.emitted b) n) _ n 0 st []
    (At.self _)
  rw [hrun.1, hrun.2, Nat.zero_add, List.nil_append] at h
  exact ⟨h, step_end (emitSem callee) _ _⟩

/-- **Lowering a tree of statements preserves its meaning.** -/
theorem lowering_conditionals {s : Stmt} {ls : List GenLine} (h : s.lines condJ = some ls) (E : LiftEnv)
    (imms : ImmLetter → BitVec 32) (n : Nat) :
    ∃ out, execLines E ls ⟨imms, [], n, []⟩ = some out ∧ Lowered .lifting E condJ s imms out := by
  rw [Stmt.lines_eq, Option.map_eq_some_iff] at h
  obtain ⟨b, hb, rfl⟩ := h
  have hx (st : PhysState) := interp_lifting E s hb ⟨imms, st, []⟩
  have hnodup := Block.nodup_marks_emit Transfer (LiftBlock.emitted (b.instantiate E.item E.expr imms).2) n
  refine ⟨_, execLines_lines E b _, rfl, fun l hl => ?_, fun callee st => ⟨_, hx st, fun c => ?_⟩,
    fun callee st code k L hn hat => ⟨_, hx st, ?_⟩, fun hc henv st => ⟨_, hx st, ?_⟩⟩
  · exact List.count_eq_one_of_mem hnodup (Block.uses_emit _ _ _ _ hl)
  · have hhalts := emitted_halts (b.instantiate E.item E.expr imms).2 n callee st
    exact ⟨fun hc => hc.unique hhalts, fun hc => hc ▸ hhalts⟩
  · have hrun := emitted_run (b.instantiate E.item E.expr imms).2 callee st
    have := Block.runs_emit (emitSem callee) hn _ n k st L hat
    rw [hrun.1, hrun.2] at this
    exact this
  · subst hc
    exact (transform_shape hb).tracks E henv imms st

/-- `if (fLSBOLD(PuV)) fPCALIGN(riV); RdV = riV;`. -/
def alignInPart : Stmt :=
  .seq (.ifThen (.call1 .fLsbold (.operand (.regOld .P ⟨.u, false⟩))) (.fPcalign .r))
    (.assg (.regOld .R ⟨.d, false⟩) (.operand (.imm .r)))

/-- `PuV` is `P0`, `RdV` the temporary of `R0`. -/
def alignEnv : LiftEnv := ⟨[(.oldV .P ⟨.u, false⟩, .hex 90), (.oldV .R ⟨.d, false⟩, .temp (.reg 0 0))], 0, 0, false⟩

theorem lowering_conditionals_alignInPart : ∃ ls, alignInPart.lines false = some ls ∧
    ∀ E imms n, ∃ out, execLines E ls ⟨imms, [], n, []⟩ = some out ∧ Lowered .lifting E false alignInPart imms out :=
  ⟨_, rfl, @lowering_conditionals false alignInPart _ rfl⟩

/-- With `PuV` false the C program assigns the immediate as it is; the lifted code has it aligned. -/
theorem aligned_in_part : ¬ ∀ (condJ : Bool) (s : Stmt) (ls : List GenLine), s.lines condJ = some ls →
    ∀ E imms n, ∃ out, execLines E ls ⟨imms, [], n, []⟩ = some out ∧ Lowered .running E condJ s imms out := by
  intro h
  obtain ⟨out, hout, hl⟩ := h false alignInPart _ rfl alignEnv (fun _ => 1) 0
  obtain ⟨r, hr, hc⟩ := hl.alone (fun _ s => s) ⟨fun _ => 0, fun _ _ => 0, fun _ => 0⟩
  have hlines := execLines_lines alignEnv ((alignInPart.transform false).getD .nil) ⟨fun _ => 1, [], 0, []⟩
  obtain rfl := Option.some.inj (hout.symm.trans hlines)
  have hlifted := (hc _).1 (emitted_halts _ 0 (fun _ s => s) ⟨fun _ => 0, fun _ _ => 0, fun _ => 0⟩)
  have hst := congrArg (fun c : Cfg EmitAct (LExpr Nat) PhysState => c.st.temp 0 0) hlifted
  have hone : (alignInPart.interp alignEnv false .running
      ⟨fun _ => 1, ⟨fun _ => 0, fun _ _ => 0, fun _ => 0⟩, []⟩).map (·.st.temp 0 0) = some 1#8 := rfl
  rw [hr] at hone
  have hzero : (0#8) = r.st.temp 0 0 := hst
  cases hzero.trans (Option.some.inj hone)

end Hex
