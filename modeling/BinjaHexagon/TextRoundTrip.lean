import BinjaHexagon.InsnText
/-!
# TextRoundTrip — the tokens print the instruction string

Piece by piece: the text between the placeholders as it stands, a register placeholder as the name of the register in
its operand's slot, an immediate as its value or as the branch target.
-/
namespace Hex

open Grammar (Piece Pieces strip lit optPieces)

section Shown

variable (T : TextTable) (pc : BitVec 64) (i : Insn)

/-- The slot of the operand with this type and these letters. -/
def TextTable.slot (r : Grammar.Reg) : Option Nat := T.regs.idxOf? (r.a.1, r.b.1)

/-- A register placeholder: one register, or the two of a pair, high and low. -/
def TextTable.shownReg (r : Grammar.Reg) : Option (List Char) := do
  let slot ← T.slot r
  let c := r.c.elim [] Subtype.val
  if r.b.1.length = 1 then getRegisterName r.a.1 c (i.reg slot)
  else do
    let hi ← getRegisterName r.a.1 c (i.reg slot + 1)
    let lo ← getRegisterName r.a.1 c (i.reg slot)
    some (hi ++ ":".toList ++ lo)

/-- Whether the immediate that `k` others stand before is the branch target: the only one of a jump or call or the
second of two, the first of a loop set-up. -/
def TextTable.isTarget (k : Nat) : Bool :=
  if T.row.isWriteToLoopStart then k == 0
  else (T.row.row.attrib .jump || T.row.row.attrib .call) && (decide (T.row.imms.length ≤ 1) || decide (0 < k))

def TextTable.shownImm (k : Nat) (l : ImmLetter) : List Char :=
  let v := i.imm (TextRow.immIndex l)
  if T.isTarget k then "0x".toList ++ hexText (pc + v.signExtend 64).toNat
  else (if T.extendable l && i.extensionValid then "##".toList else "#".toList) ++ "0x".toList ++ hexText v.toNat

/-- What a piece is printed as, with `k` immediates before it. -/
def TextTable.shownPiece (k : Nat) : Piece → Option (List Char)
  | .word w => some w
  | .reg r => T.shownReg i r
  | .imm x => some (T.shownImm pc i k x.immlett)
  | .const num => (constText num.1).map fun w => "#".toList ++ w
  | .named w => some (sysRegName w)
  | .gp => some (if i.extensionValid then "0".toList else "GP".toList)

def immCount : Pieces → Nat
  | [] => 0
  | .imm _ :: ps => immCount ps + 1
  | _ :: ps => immCount ps

/-- The string with its placeholders replaced. -/
def TextTable.shownAll (k : Nat) : Pieces → Option (List Char)
  | [] => some []
  | p :: ps => do
    let a ← T.shownPiece pc i k p
    let b ← shownAll (k + immCount [p]) ps
    some (a ++ b)

theorem immCount_append : ∀ ps qs : Pieces, immCount (ps ++ qs) = immCount ps + immCount qs
  | [], qs => (Nat.zero_add _).symm
  | .imm _ :: ps, qs => by
    change immCount (ps ++ qs) + 1 = immCount ps + 1 + immCount qs
    rw [immCount_append ps qs, Nat.add_right_comm]
  | .word _ :: ps, qs | .reg _ :: ps, qs | .const _ :: ps, qs | .named _ :: ps, qs | .gp :: ps, qs =>
      immCount_append ps qs

theorem shownAll_append : ∀ (ps qs : Pieces) (k : Nat), T.shownAll pc i k (ps ++ qs) = do
    let a ← T.shownAll pc i k ps
    let b ← T.shownAll pc i (k + immCount ps) qs
    some (a ++ b)
  | [], qs, k => by
    cases h : T.shownAll pc i k qs with
    | none => simp [TextTable.shownAll, immCount, h]
    | some b => simp [TextTable.shownAll, immCount, h]
  | p :: ps, qs, k => by
    have hcount : immCount (p :: ps) = immCount [p] + immCount ps := immCount_append [p] ps
    have ih := shownAll_append ps qs (k + immCount [p])
    rw [List.cons_append, TextTable.shownAll, TextTable.shownAll, ih, hcount, ← Nat.add_assoc]
    cases T.shownPiece pc i k p with
    | none => rfl
    | some a =>
      cases T.shownAll pc i (k + immCount [p]) ps with
      | none => rfl
      | some b =>
        cases T.shownAll pc i (k + immCount [p] + immCount ps) qs with
        | none => rfl
        | some d => simp

theorem showToks_append : ∀ ts us : List TextTok, showToks pc i (ts ++ us) = do
    let a ← showToks pc i ts
    let b ← showToks pc i us
    some (a ++ b)
  | [], us => by
    cases h : showToks pc i us with
    | none => simp [showToks, h]
    | some b => simp [showToks, h]
  | t :: ts, us => by
    rw [List.cons_append, showToks, showToks, showToks_append ts us]
    cases t.shown pc i with
    | none => rfl
    | some a =>
      cases showToks pc i ts with
      | none => rfl
      | some b =>
        cases showToks pc i us with
        | none => rfl
        | some d => simp

end Shown

section Prints

variable {T : TextTable}

/-- The flags behind `k` immediates. -/
def TextTable.seenAt (T : TextTable) (k : Nat) : Seen where
  cmpjump := (T.row.row.attrib .jump || T.row.row.attrib .call) && decide (1 < T.row.imms.length) && decide (0 < k)
  loop := T.row.isWriteToLoopStart && decide (0 < k)

/-- The placeholder's operand is in the table, and no other operand has its letters. -/
def TextTable.Owns (T : TextTable) (r : Grammar.Reg) : Prop :=
  (r.a.1, r.b.1) ∈ T.regs ∧ (T.regs.map Prod.snd).count r.b.1 = 1

/-- What the callbacks of registers and immediates assert. -/
def TextTable.Printable (T : TextTable) : Piece → Prop
  | .reg r => r.b.1.length = 1 ∨ r.b.1.length = 2 ∧ r.c = none
  | .imm _ => ((T.row.row.attrib .jump || T.row.row.attrib .call) && decide (1 < T.row.imms.length)) = true →
      (T.row.imms.length == 2 && (T.row.isJumpseti || T.row.row.attrib .newcmpjump || T.row.isNewValueJump)) = true
  | _ => True

/-- A callback prints its pieces, for a table that has their operands; it fails on a failed `assert` only. -/
structure Prints (T : TextTable) (m : Emit) (ps : Pieces) : Prop where
  shows : (∀ r, Piece.reg r ∈ ps → T.Owns r) → ∀ k toks s, m (T.seenAt k) = some (toks, s) →
    s = T.seenAt (k + immCount ps) ∧ ∀ pc i, (showToks pc i toks).map strip = (T.shownAll pc i k ps).map strip
  emits : (∀ r, Piece.reg r ∈ ps → T.Owns r) → (∀ p ∈ ps, T.Printable p) → ∀ k, (m (T.seenAt k)).isSome

/-- The blanks of two texts put together are those of the two. -/
theorem map_strip_append {a b a' b' : Option (List Char)} (h : a.map strip = a'.map strip)
    (h' : b.map strip = b'.map strip) :
    (do let x ← a; let y ← b; some (x ++ y)).map strip = (do let x ← a'; let y ← b'; some (x ++ y)).map strip := by
  cases a with
  | none =>
    cases a' with
    | none => rfl
    | some x => cases h
  | some x =>
    cases a' with
    | none => cases h
    | some x' =>
      cases b with
      | none =>
        cases b' with
        | none => rfl
        | some y => cases h'
      | some y =>
        cases b' with
        | none => cases h'
        | some y' =>
          simp only [Option.map_some, Option.some.injEq] at h h'
          change some (strip (x ++ y)) = some (strip (x' ++ y'))
          rw [Grammar.strip_append, Grammar.strip_append, h, h']

theorem Prints.append {m n : Emit} {ps qs : Pieces} (hm : Prints T m ps) (hn : Prints T n qs) :
    Prints T (m ++ n) (ps ++ qs) where
  shows hregs k toks s h := by
    obtain ⟨⟨ts, s1⟩, h1, h⟩ := Option.bind_eq_some_iff.1 h
    obtain ⟨⟨us, s2⟩, h2, h⟩ := Option.bind_eq_some_iff.1 h
    cases h
    obtain ⟨rfl, hts⟩ := hm.shows (fun r hr => hregs r (List.mem_append_left _ hr)) k ts s1 h1
    obtain ⟨rfl, hus⟩ := hn.shows (fun r hr => hregs r (List.mem_append_right _ hr)) (k + immCount ps) us s2 h2
    refine ⟨by rw [immCount_append, Nat.add_assoc], fun pc i => ?_⟩
    rw [showToks_append, shownAll_append]
    exact map_strip_append (hts pc i) (hus pc i)
  emits hregs hps k := by
    have hleft := fun r hr => hregs r (List.mem_append_left qs hr)
    have hright := fun r hr => hregs r (List.mem_append_right ps hr)
    obtain ⟨⟨ts, s1⟩, h1⟩ := Option.isSome_iff_exists.1
      (hm.emits hleft (fun p hp => hps p (List.mem_append_left _ hp)) k)
    obtain ⟨rfl, -⟩ := hm.shows hleft k ts s1 h1
    obtain ⟨⟨us, s2⟩, h2⟩ := Option.isSome_iff_exists.1
      (hn.emits hright (fun p hp => hps p (List.mem_append_right _ hp)) (k + immCount ps))
    have h : (m ++ n) (T.seenAt k) = some (ts ++ us, s2) :=
      Option.bind_eq_some_iff.2 ⟨_, h1, Option.bind_eq_some_iff.2 ⟨_, h2, rfl⟩⟩
    exact Option.isSome_iff_exists.2 ⟨_, h⟩

theorem Prints.nil : Prints T (emit []) [] where
  shows _ k toks s h := by
    cases h
    exact ⟨rfl, fun _ _ => rfl⟩
  emits _ _ _ := rfl

/-- A token of fixed text, where a piece of the string stands with no immediate in it. -/
theorem Prints.single {t : TextTok} {p : Piece} (hp : immCount [p] = 0)
    (h : ∀ pc i k, (t.shown pc i).map strip = (T.shownPiece pc i k p).map strip) : Prints T (emit [t]) [p] where
  shows _ k toks s hs := by
    cases hs
    refine ⟨by rw [hp]; rfl, fun pc i => ?_⟩
    exact map_strip_append (h pc i k) rfl
  emits _ _ _ := rfl

theorem Prints.text {w v : String} (h : strip w.toList = strip v.toList) : Prints T (textTok w) (lit v) :=
  .single rfl fun _ _ _ => congrArg some h

theorem Prints.opt {α : Type} {o : Option α} {f : α → Emit} {g : α → Pieces} (h : ∀ a, Prints T (f a) (g a)) :
    Prints T (optEmit o f) (optPieces o g) := by
  cases o with
  | none => exact .nil
  | some a => exact h a

/-- A dictionary filled from a list has the one value a key was put in with. -/
theorem foldl_update {β : Type} [DecidableEq β] [BEq β] [LawfulBEq β] (b : β) (n : Nat) :
    ∀ (l : List (β × Nat)) (f : β → Option Nat), (l.map Prod.fst).count b ≤ 1 →
      ((b, n) ∈ l → l.foldl (fun (g : β → Option Nat) r => Function.update g r.1 (some r.2)) f b = some n) ∧
      (b ∉ l.map Prod.fst → l.foldl (fun (g : β → Option Nat) r => Function.update g r.1 (some r.2)) f b = f b)
  | [], _, _ => ⟨fun h => (List.not_mem_nil h).elim, fun _ => rfl⟩
  | r :: l, f, hd => by
    have hl : (l.map Prod.fst).count b ≤ 1 := Nat.le_trans (List.count_le_count_cons ..) hd
    have ih := foldl_update b n l (Function.update f r.1 (some r.2)) hl
    rw [List.foldl_cons]
    constructor
    · intro hmem
      rcases List.mem_cons.1 hmem with rfl | hmem
      · have hnot : b ∉ l.map Prod.fst := by
          rw [List.map_cons, List.count_cons_self] at hd
          exact List.count_eq_zero.1 (by omega)
        rw [ih.2 hnot]
        exact Function.update_self ..
      · exact ih.1 hmem
    · intro hn
      obtain ⟨hne, hn⟩ := not_or.1 (mt List.mem_cons.2 hn)
      rw [ih.2 hn, Function.update_of_ne hne]

/-- **Where no two operands share their letters, the letters find the operand's own slot.** -/
theorem seenregs_eq_slot {r : Grammar.Reg} (hr : T.Owns r) : T.seenregs r.b.1 = T.slot r := by
  obtain ⟨n, hn⟩ := Option.isSome_iff_exists.1 (List.isSome_idxOf?.2 hr.1)
  have hslot : T.slot r = some n := hn
  obtain ⟨hlt, hget, -⟩ := List.idxOf?_eq_some_iff.1 hn
  have hmem : (r.b.1, n) ∈ T.regs.zipIdx.map fun r => (r.1.2, r.2) :=
    List.mem_map.2 ⟨((r.a.1, r.b.1), n), List.mk_mem_zipIdx_iff_getElem?.2 (List.getElem?_eq_some_iff.2 ⟨hlt, hget⟩),
      rfl⟩
  have hkeys : (T.regs.zipIdx.map fun r => (r.1.2, r.2)).map Prod.fst = T.regs.map Prod.snd := by
    calc (T.regs.zipIdx.map fun r => (r.1.2, r.2)).map Prod.fst = (T.regs.zipIdx.map Prod.fst).map Prod.snd := by
          rw [List.map_map, List.map_map]
          rfl
      _ = T.regs.map Prod.snd := by rw [List.zipIdx_map_fst]
  have h := (foldl_update r.b.1 n _ (fun _ => none) (by rw [hkeys]; exact Nat.le_of_eq hr.2)).1 hmem
  rw [List.foldl_map] at h
  exact h.trans hslot.symm

theorem prints_reg (r : Grammar.Reg) : Prints T (T.reg r) [.reg r] where
  shows hregs k toks s h := by
    have hslot := seenregs_eq_slot (hregs r (List.mem_singleton_self _))
    unfold TextTable.reg at h
    dsimp only at h
    rw [hslot] at h
    cases hn : T.slot r with
    | none => rw [hn] at h; cases h
    | some n =>
      rw [hn] at h
      dsimp only at h
      by_cases h1 : r.b.1.length = 1
      · rw [if_pos h1] at h
        cases h
        refine ⟨rfl, fun pc i => map_strip_append ?_ rfl⟩
        simp only [TextTok.shown, TextTable.shownPiece, TextTable.shownReg, hn, h1, if_true, Option.bind_some, bind]
        rfl
      · rw [if_neg h1] at h
        split at h
        · rename_i h2
          cases h
          refine ⟨rfl, fun pc i => ?_⟩
          simp only [showToks, TextTok.shown, TextTable.shownAll, TextTable.shownPiece, TextTable.shownReg, hn, h1,
            if_false, Option.bind_some, bind, if_true, Bool.false_eq_true, Nat.add_zero]
          cases getRegisterName r.a.1 (r.c.elim [] Subtype.val) (i.reg n + 1) with
          | none => rfl
          | some hi =>
            cases getRegisterName r.a.1 (r.c.elim [] Subtype.val) (i.reg n) with
            | none => rfl
            | some lo => simp
        · cases h
  emits hregs hps k := by
    have howns := hregs r (List.mem_singleton_self _)
    obtain ⟨n, hn⟩ : ∃ n, T.slot r = some n := Option.isSome_iff_exists.1 (List.isSome_idxOf?.2 howns.1)
    unfold TextTable.reg
    dsimp only
    rw [seenregs_eq_slot howns, hn]
    dsimp only
    rcases hps _ (List.mem_singleton_self _) with h1 | ⟨h2, hc⟩
    · rw [if_pos h1]
      rfl
    · rw [if_neg (by omega), if_pos ⟨h2, by rw [hc]; rfl⟩]
      rfl

theorem immTokens_seenAt {k : Nat} {l : ImmLetter} {ts : List ImmToken}
    (h : T.row.immTokens (T.seenAt k).cmpjump (T.seenAt k).loop [l] = some ts) :
    ts = [if T.isTarget k then .address (TextRow.immIndex l) else .integer (TextRow.immIndex l)] := by
  have hpos : decide (0 < k) = !(k == 0) := by cases k <;> rfl
  have hle : decide (T.row.imms.length ≤ 1) = !decide (1 < T.row.imms.length) := by
    rw [← decide_not, decide_eq_decide, Nat.not_lt]
  simp only [TextRow.immTokens] at h
  split at h
  · cases h
  · cases h
    congr 2
    rw [TextTable.isTarget, TextTable.seenAt, hpos, hle]
    cases T.row.isWriteToLoopStart <;> cases T.row.row.attrib .jump || T.row.row.attrib .call <;>
      cases decide (1 < T.row.imms.length) <;> cases k == 0 <;> rfl

theorem prints_imm (x : Grammar.Imm) : Prints T (T.imm x) [.imm x] where
  shows _ k toks s h := by
    obtain ⟨ts, hts, h⟩ := Option.map_eq_some_iff.1 h
    cases h
    rw [immTokens_seenAt hts]
    constructor
    · have hsucc : decide (0 < k + immCount [.imm x]) = true := rfl
      have hor (c d : Bool) : (c && d || c) = (c && true) := by cases c <;> cases d <;> rfl
      simp only [TextTable.seenAt, hsucc, hor]
    · intro pc i
      refine congrArg _ ?_
      simp only [List.flatMap_cons, List.flatMap_nil, List.append_nil, TextTable.shownAll, TextTable.shownPiece,
        TextTable.shownImm]
      cases T.isTarget k with
      | true => rfl
      | false =>
        cases hx : T.extendable x.immlett with
        | true => cases hv : i.extensionValid <;> simp [TextTable.immToks, showToks, TextTok.shown, hx, hv]
        | false => simp [TextTable.immToks, showToks, TextTok.shown, hx]
  emits _ hps k := by
    have hassert := hps _ (List.mem_singleton_self _)
    have hpass : ¬ ((T.row.row.attrib .jump || T.row.row.attrib .call) && decide (1 < T.row.imms.length) &&
        !(T.row.imms.length == 2 && (T.row.isJumpseti || T.row.row.attrib .newcmpjump || T.row.isNewValueJump))) =
            true := by
      intro h
      obtain ⟨h, hn⟩ := Bool.and_eq_true_iff.1 h
      rw [hassert h] at hn
      cases hn
    unfold TextTable.imm
    simp only [TextRow.immTokens]
    rw [if_neg hpass]
    rfl

end Prints

section Trees

variable {T : TextTable}

theorem upper_digit (d : Grammar.Terminal Grammar.isDigit) : upper d.1 = d.1 := by
  have hall : d.1.all Char.isDigit = true := (Bool.and_eq_true _ _ ▸ d.2).2
  have hsame : ∀ c ∈ d.1, c.toUpper = c := by
    intro c hc
    have hdig : c.isDigit = true := List.all_eq_true.1 hall c hc
    have hle : c.val ≤ '9'.val := of_decide_eq_true (Bool.and_eq_true_iff.1 hdig).2
    exact dif_neg fun h => absurd (UInt32.le_trans h.1 hle) (by decide)
  calc upper d.1 = d.1.map id := List.map_congr_left hsame
    _ = d.1 := List.map_id _

/-- A predicate register is printed with a capital `P`. -/
theorem sysRegName_pred (d : Grammar.Terminal Grammar.isDigit) :
    sysRegName (Grammar.predText d) = "P".toList ++ d.1 := by
  have hup : upper (Grammar.predText d) = 'P' :: d.1 := congrArg ('P' :: ·) (upper_digit d)
  have hne (w : List Char) (hw : w.head? = some 'R') : ¬ 'P' :: d.1 = w := fun h => absurd (h ▸ hw) (by simp)
  rw [sysRegName, hup, if_neg (hne _ rfl), if_neg (hne _ rfl)]
  rfl

theorem prints_regTerminal (w : String) : Prints T (TextTable.regTerminal w) (lit w) := .single rfl fun _ _ _ => rfl

theorem prints_predReg (d : Grammar.Terminal Grammar.isDigit) :
    Prints T (TextTable.predReg d) [.named (Grammar.predText d)] :=
  .single rfl fun _ _ _ => congrArg some (congrArg strip (sysRegName_pred d).symm)

theorem prints_const (num : Grammar.Const) : Prints T (TextTable.const num) [.const num] where
  shows _ k toks s h := by
    cases h
    refine ⟨rfl, fun pc i => ?_⟩
    simp only [showToks, TextTok.shown, TextTable.shownAll, TextTable.shownPiece, bind, Option.bind_some]
    cases constText num.1 with
    | none => rfl
    | some w => simp
  emits _ _ _ := rfl

theorem prints_anyReg (r : Grammar.AnyReg) : Prints T (T.anyReg r) r.pieces := by
  cases r with
  | reg r => exact prints_reg r
  | dotNew r => exact (prints_reg r).append (prints_regTerminal _)
  | predDotNew d => exact (prints_predReg d).append (prints_regTerminal _)
  | dotCur r x => exact (prints_reg r).append (prints_regTerminal _)
  | subreg r x => exact (prints_reg r).append (prints_regTerminal _)
  | pred d => exact prints_predReg d
  | gp => exact .single rfl fun _ _ _ => rfl
  | sys r => exact .single rfl fun _ _ _ => rfl
  | brev r => exact (prints_reg r).append (.text rfl)
  | star r => exact (prints_reg r).append (.text rfl)

theorem prints_operand (op : Grammar.Operand) : Prints T (T.operand op) op.pieces := by
  cases op with
  | const num => exact prints_const num
  | imm x => exact prints_imm x
  | anyReg r => exact prints_anyReg r
  | notReg r => exact .append (.text rfl) (prints_reg r)
  | circImm x r => exact (((prints_imm x).append (.text rfl)).append (prints_reg r)).append (.text rfl)
  | circI r => exact ((Prints.text rfl |>.append (.text rfl)).append (prints_reg r)).append (.text rfl)

theorem prints_insn (i : Grammar.InsnName) : Prints T (TextTable.insn i) i.pieces := .single rfl fun _ _ _ => rfl

theorem prints_blank : Prints T (textTok " ") [] where
  shows _ k toks s h := by
    cases h
    exact ⟨rfl, fun _ _ => rfl⟩
  emits _ _ _ := rfl

theorem prints_hint (h : Grammar.Hint) : Prints T (TextTable.hint h) h.pieces := by
  refine .append (.text rfl) ?_
  cases h with
  | raw x =>
    cases x with
    | none => exact .nil
    | some x => exact .text rfl
  | _ => exact .nil

theorem prints_resHint : ∀ h : Grammar.ResHint, Prints T (TextTable.resHint h) h.pieces
  | .one h => by
    have hone := (prints_hint (T := T) h).append Prints.nil
    rwa [List.append_nil] at hone
  | .more h rest => (prints_hint h).append (prints_resHint rest)
  | .last _ => .text rfl

theorem prints_call : ∀ k : Grammar.Call, Prints T (T.call k) k.pieces
  | .insn i => prints_insn i
  | .call1NoParen i op => by
    have hname := (prints_insn (T := T) i).append prints_blank
    rw [List.append_nil] at hname
    exact hname.append (prints_operand op)
  | .call1 i op => (((prints_insn i).append (.text rfl)).append (prints_operand op)).append (.text rfl)
  | .call2 i op1 op2 => ((((prints_insn i |>.append (.text rfl)).append (prints_operand op1)).append (.text rfl)).append
      (prints_operand op2)).append (.text rfl)
  | .call2Rator i op1 r op2 => (((((prints_insn i |>.append (.text rfl)).append (prints_operand op1)).append
      (.text rfl)).append (.text rfl)).append (prints_operand op2)).append (.text rfl)
  | .call3 i op1 op2 op3 => ((((((prints_insn i |>.append (.text rfl)).append (prints_operand op1)).append
      (.text rfl)).append (prints_operand op2)).append (.text rfl)).append (prints_operand op3)).append (.text rfl)
  | .callRator2 i op1 r op2 => ((((prints_insn i |>.append (.text rfl)).append (prints_operand op1)).append
      (.text rfl)).append (prints_operand op2)).append (.text rfl)
  | .callRator3 i op1 r1 op2 r2 op3 => ((((((prints_insn i |>.append (.text rfl)).append (prints_operand op1)).append
      (.text rfl)).append (prints_operand op2)).append (.text rfl)).append (prints_operand op3)).append (.text rfl)
  | .callNested1 i k => ((prints_insn i |>.append (.text rfl)).append (prints_call k)).append (.text rfl)
  | .callNested2 i op k => ((((prints_insn i |>.append (.text rfl)).append (prints_operand op)).append
      (.text rfl)).append (prints_call k)).append (.text rfl)
  | .callNested3 i k op => ((((prints_insn i |>.append (.text rfl)).append (prints_call k)).append (.text rfl)).append
      (prints_operand op)).append (.text rfl)

theorem prints_cond (c : Grammar.Cond) : Prints T (T.cond c) c.pieces := by
  cases c with
  | operand op => exact prints_operand op
  | cond2 op1 cmp op2 => exact ((prints_operand op1).append (.text rfl)).append (prints_operand op2)
  | call k => exact prints_call k

theorem prints_notSign (neg : Bool) : Prints T (TextTable.notSign neg) (Grammar.notPieces neg) := by
  cases neg with
  | true => exact .text rfl
  | false => exact .nil

theorem prints_optRator (r : Option Grammar.Rator) : Prints T (TextTable.optRator r) (Grammar.ratorPieces r) :=
  .opt fun _ => .text rfl

theorem prints_optSubfield (x : Option Grammar.Subfield) :
    Prints T (TextTable.optSubfield x) (Grammar.subfieldPieces x) := .opt fun _ => .text rfl

theorem prints_equals : Prints T (textTok " = ") (lit "=") := .text rfl

theorem prints_optReg (r : Option Grammar.Reg) :
    Prints T (T.optReg r) (optPieces r fun r => lit "," ++ [.reg r]) :=
  .opt fun r => .append (.text rfl) (prints_reg r)

/-- **Every callback prints what its node stands for.** -/
theorem prints_exp : ∀ e : Grammar.Exp, Prints T (T.exp e) e.pieces
  | .callExp neg k _ => ((prints_notSign neg).append (prints_call k)).append (.opt prints_resHint)
  | .ifExp neg c e =>
    have hclose : Prints T (textTok ") ") (lit ")") := .text rfl
    (((Prints.text rfl |>.append (prints_notSign neg)).append (prints_cond c)).append hclose).append (prints_exp e)
  | .assignToOp op1 r r1 r2 op2 => (((((prints_operand op1).append (prints_optReg r)).append
      (prints_optRator r1)).append prints_equals).append (prints_optRator r2)).append (prints_operand op2)
  | .assignToOpExp op1 r r1 r2 e => (((((prints_operand op1).append (prints_optReg r)).append
      (prints_optRator r1)).append prints_equals).append (prints_optRator r2)).append (prints_exp e)
  | .assignComma op1 r1 r2 op2 e => ((((((prints_operand op1).append (prints_optRator r1)).append prints_equals).append
      (prints_optRator r2)).append (prints_operand op2)).append (.text rfl)).append (prints_exp e)
  | .assignCommaExp op1 r1 r2 e2 e => ((((((prints_operand op1).append (prints_optRator r1)).append
      prints_equals).append (prints_optRator r2)).append (prints_exp e2)).append (.text rfl)).append (prints_exp e)
  | .assignToExp e1 x1 r1 r2 op2 x2 => ((((((prints_exp e1).append (prints_optSubfield x1)).append
      (prints_optRator r1)).append prints_equals).append (prints_optRator r2)).append (prints_operand op2)).append
      (prints_optSubfield x2)
  | .assignToExpExp e1 x1 r1 r2 e2 x2 => ((((((prints_exp e1).append (prints_optSubfield x1)).append
      (prints_optRator r1)).append prints_equals).append (prints_optRator r2)).append (prints_exp e2)).append
      (prints_optSubfield x2)

theorem seenAt_zero : T.seenAt 0 = ⟨false, false⟩ := by
  rw [TextTable.seenAt, Nat.lt_irrefl 0 |> decide_eq_false, Bool.and_false, Bool.and_false]

theorem strip_showToks {e : Grammar.Exp} {toks : List TextTok} (h : T.processInsnTokens e = some toks)
    (hregs : ∀ r, Piece.reg r ∈ e.pieces → T.Owns r) (pc : BitVec 64) (i : Insn) :
    (showToks pc i toks).map strip = (T.shownAll pc i 0 e.pieces).map strip := by
  obtain ⟨⟨ts, s⟩, hts, rfl⟩ := Option.map_eq_some_iff.1 h
  exact ((prints_exp e).shows hregs 0 ts s (seenAt_zero (T := T) ▸ hts)).2 pc i

end Trees

/-- **The tokens print the instruction string.**  The string is cut into the pieces of its tree; whatever the
instruction and its address, the texts of the tokens are what the pieces are printed as, up to blanks.  Each register
has to have letters of its own in the table. -/
theorem text_round_trip (T : TextTable) (beh : List Char) (e : Grammar.Exp) (hyield : strip beh = strip e.yield)
    (hregs : ∀ r, Piece.reg r ∈ e.pieces → T.Owns r) :
    strip beh = strip (e.pieces.flatMap Piece.source) ∧
      (∀ toks, T.processInsnTokens e = some toks →
        ∀ pc i, (showToks pc i toks).map strip = (T.shownAll pc i 0 e.pieces).map strip) ∧
      ((∀ p ∈ e.pieces, T.Printable p) → (T.processInsnTokens e).isSome) := by
  refine ⟨hyield, fun toks h pc i => strip_showToks h hregs pc i, fun hps => ?_⟩
  have := (prints_exp e).emits hregs hps 0
  rw [seenAt_zero] at this
  rwa [TextTable.processInsnTokens, Option.isSome_map]

section Instances

open Grammar

def regOf (a b d : String) (ha : isRegA a.toList = true) (hb : isRegB b.toList = true) (hd : isInt d.toList = true) :
    Reg :=
  ⟨⟨a.toList, ha⟩, ⟨b.toList, hb⟩, false, none, ⟨d.toList, hd⟩, false⟩

/-- `Rd32=add(Rs32,#s16)` -/
def addiTree : Exp :=
  .assignToOpExp (.anyReg (.reg (regOf "R" "d" "32" rfl rfl rfl))) none none none
    (.callExp false (.call2 ⟨"add".toList, .word ⟨"add".toList, rfl⟩⟩ (.anyReg (.reg (regOf "R" "s" "32" rfl rfl rfl)))
      (.imm ⟨.s, ⟨"16".toList, rfl⟩, none⟩)) none)

def addiTable : TextTable where
  row := ⟨Opcodes.a2Addi.toOpcodeRow, [.s], false, false⟩
  immext := some 's'
  regs := [("R".toList, "d".toList), ("R".toList, "s".toList)]

theorem addiTree_owns : ∀ r, Piece.reg r ∈ addiTree.pieces → addiTable.Owns r := by
  intro r hr
  have : r = regOf "R" "d" "32" rfl rfl rfl ∨ r = regOf "R" "s" "32" rfl rfl rfl := by
    simpa [addiTree, Exp.pieces, Operand.pieces, AnyReg.pieces, Call.pieces, lit, optPieces, ratorPieces, notPieces,
      InsnName.pieces] using hr
  rcases this with rfl | rfl <;> exact ⟨by decide, by decide⟩

/-- `R3=add(SP,#0x10)` -/
theorem text_round_trip_addi : strip "Rd32=add(Rs32,#s16)".toList = strip (addiTree.pieces.flatMap Piece.source) ∧
    (∀ toks, addiTable.processInsnTokens addiTree = some toks →
      ∀ pc i, (showToks pc i toks).map strip = (addiTable.shownAll pc i 0 addiTree.pieces).map strip) ∧
    ((∀ p ∈ addiTree.pieces, addiTable.Printable p) → (addiTable.processInsnTokens addiTree).isSome) :=
  text_round_trip addiTable _ addiTree (by decide) addiTree_owns

example : (addiTable.processInsnTokens addiTree).bind (showToks 0 (Opcodes.a2Addi.insn [3, 29] [16] (by decide))) =
    some "R3 = add(SP,#0x10)".toList := by decide

/-- `if (p0) Rd16=#0` -/
def clrtTree : Exp :=
  .ifExp false (.operand (.anyReg (.pred ⟨"0".toList, rfl⟩)))
    (.assignToOp (.anyReg (.reg (regOf "R" "d" "16" rfl rfl rfl))) none none none (.const ⟨"0".toList, rfl⟩))

def clrtTable : TextTable where
  row := ⟨Opcodes.sa1Clrt.toOpcodeRow, [], false, false⟩
  immext := none
  regs := [("R".toList, "d".toList)]

/-- A row with the operands `Rs32` and `Ps4`. -/
def sameLetters : Opcode where
  tag := .other 30
  attribs := []
  regs := [⟨.R, ⟨.s, false⟩, false⟩, ⟨.P, ⟨.s, false⟩, false⟩]
  parts := []
  supported := false
  generated h := by cases h
  wellScoped h := by cases h
  hint_not_call h := by cases h

/-- `Rs32=Ps4` -/
def sameTree : Exp :=
  .assignToOp (.anyReg (.reg (regOf "R" "s" "32" rfl rfl rfl))) none none none
    (.anyReg (.reg (regOf "P" "s" "4" rfl rfl rfl)))

def sameTable : TextTable where
  row := ⟨sameLetters.toOpcodeRow, [], false, false⟩
  immext := none
  regs := [("R".toList, "s".toList), ("P".toList, "s".toList)]

end Instances

section Verbatim

variable (T : TextTable) (pc : BitVec 64) (i : Insn)

/-- A piece with the constants and the written-out registers as they stand, `r29` and `r31` apart. -/
def TextTable.verbatimPiece (k : Nat) : Piece → Option (List Char)
  | .named w => some (if w = "r29".toList then "SP".toList else if w = "r31".toList then "LR".toList else w)
  | .const num => some ("#".toList ++ num.1)
  | .gp => some "gp".toList
  | p => T.shownPiece pc i k p

def TextTable.verbatimAll (k : Nat) : Pieces → Option (List Char)
  | [] => some []
  | p :: ps => do
    let a ← T.verbatimPiece pc i k p
    let b ← verbatimAll (k + immCount [p]) ps
    some (a ++ b)

end Verbatim

/-- `if (p0) R5=#0` is printed `if (P0) R5 = #0x0`; and in `R7=P2`, whose operands share a letter, the slot of the
second serves for both. -/
theorem text_not_verbatim :
    ((clrtTable.processInsnTokens clrtTree).bind (showToks 0 (Opcodes.sa1Clrt.insn [5] [] (by decide)))).map strip =
        some "if(P0)R5=#0x0".toList ∧
      (clrtTable.verbatimAll 0 (Opcodes.sa1Clrt.insn [5] [] (by decide)) 0 clrtTree.pieces).map strip =
        some "if(p0)R5=#0".toList ∧
      ((sameTable.processInsnTokens sameTree).bind (showToks 0 (sameLetters.insn [7, 2] [] (by decide)))).map strip =
        some "R2=P2".toList ∧
      (sameTable.verbatimAll 0 (sameLetters.insn [7, 2] [] (by decide)) 0 sameTree.pieces).map strip =
        some "R7=P2".toList := by
  exact ⟨by decide, by decide, by decide, by decide⟩

end Hex
