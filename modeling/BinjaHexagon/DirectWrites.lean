import BinjaHexagon.MacroNesting
import BinjaHexagon.PacketTemps
import BinjaHexagon.TempVars
/-!
# DirectWrites — the registers a behaviour writes without a temporary

`fWRITE_SP`, `fWRITE_FP`, `fWRITE_LR`, the loop registers and `LPCFG` are set in place.  Source operands are set
nowhere, and every other destination has a temporary.
-/
namespace Flow.Block

variable {α β : Type}

theorem exists_path_of_act : ∀ {b : Block α β} {a : α}, a ∈ b.acts → ∃ p ∈ b.paths, .inl a ∈ p
  | nil, a, h => absurd h List.not_mem_nil
  | act x r, a, h => by
    rcases List.mem_cons.1 h with rfl | h
    · obtain ⟨p, hp⟩ := exists_path r
      exact ⟨_, List.mem_map.2 ⟨p, hp, rfl⟩, List.mem_cons_self⟩
    · obtain ⟨p, hp, ha⟩ := exists_path_of_act h
      exact ⟨_, List.mem_map.2 ⟨p, hp, rfl⟩, List.mem_cons_of_mem _ ha⟩
  | ifThen c t r, a, h => by
    rcases List.mem_append.1 h with h | h
    · obtain ⟨p, hp, ha⟩ := exists_path_of_act h
      obtain ⟨q, hq⟩ := exists_path r
      exact ⟨_, List.mem_flatMap.2 ⟨p, List.mem_cons_of_mem _ hp, List.mem_map.2 ⟨q, hq, rfl⟩⟩,
        List.mem_cons_of_mem _ (List.mem_append_left _ ha)⟩
    · obtain ⟨q, hq, ha⟩ := exists_path_of_act h
      exact ⟨_, List.mem_flatMap.2 ⟨[], List.mem_cons_self, List.mem_map.2 ⟨q, hq, rfl⟩⟩, List.mem_cons_of_mem _ ha⟩
  | ifElse c t f r, a, h => by
    obtain ⟨u, hu⟩ := exists_path t
    rcases List.mem_append.1 h with h | h
    · obtain ⟨p, hp, ha⟩ := exists_path_of_act h
      obtain ⟨q, hq⟩ := exists_path r
      exact ⟨_, List.mem_flatMap.2 ⟨p, List.mem_append_left _ hp, List.mem_map.2 ⟨q, hq, rfl⟩⟩,
        List.mem_cons_of_mem _ (List.mem_append_left _ ha)⟩
    · rcases List.mem_append.1 h with h | h
      · obtain ⟨p, hp, ha⟩ := exists_path_of_act h
        obtain ⟨q, hq⟩ := exists_path r
        exact ⟨_, List.mem_flatMap.2 ⟨p, List.mem_append_right _ hp, List.mem_map.2 ⟨q, hq, rfl⟩⟩,
          List.mem_cons_of_mem _ (List.mem_append_left _ ha)⟩
      · obtain ⟨q, hq, ha⟩ := exists_path_of_act h
        exact ⟨_, List.mem_flatMap.2 ⟨u, List.mem_append_left _ hu, List.mem_map.2 ⟨q, hq, rfl⟩⟩,
          List.mem_cons_of_mem _ (List.mem_append_right _ ha)⟩

end Flow.Block

namespace Hex

open Flow (Block)

/-- The registers that the behaviour language writes by name. -/
def writtenRegs : List Nat :=
  [hexRegSp, hexRegFp, hexRegLr, hexRegSa0, hexRegLc0, hexRegSa1, hexRegLc1, hexRegUsrLpcfg]

/-- What a block writes by name is one of them. -/
def WritesNamed (b : GBlock) : Prop :=
  ∀ x, .insn x ∈ b.acts → ∀ d ∈ x.dests, ∀ r, d.2 = .hexReg r → r ∈ writtenRegs

namespace WritesNamed

theorem nil : WritesNamed .nil := fun _ h => absurd h List.not_mem_nil

theorem insn {x : IlInsn RegName ConstName} (h : ∀ d ∈ x.dests, ∀ r, d.2 = .hexReg r → r ∈ writtenRegs) :
    WritesNamed (.act (.insn x) .nil) := fun y hy => by
  cases List.mem_singleton.1 hy
  exact h

theorem mark {x : GenItem} (h : ∀ i, x ≠ .insn i) : WritesNamed (.act x .nil) :=
  fun i hi => absurd (List.mem_singleton.1 hi).symm (h i)

theorem append {b k : GBlock} (hb : WritesNamed b) (hk : WritesNamed k) : WritesNamed (b ++ k) := fun x hx => by
  rw [Block.acts_append] at hx
  exact (List.mem_append.1 hx).elim (hb x) (hk x)

theorem setRegister {size : Nat} {q : RegName} {v : IlVal} (h : ∀ r, q = .hexReg r → r ∈ writtenRegs) :
    WritesNamed (setRegister size q v) :=
  insn fun d hd => by
    rw [List.mem_singleton.1 hd]
    exact h

theorem ifStmt {c : GExpr} {t f : GBlock} (ht : WritesNamed t) (hf : WritesNamed f) : WritesNamed (ifStmt c t f) := by
  have helse : WritesNamed (.ifElse c t f .nil) := fun x hx => by
    simp only [Block.acts, List.append_nil, List.mem_append] at hx
    exact hx.elim (ht x) (hf x)
  cases f with
  | nil => exact fun x hx => ht x (by simpa [Hex.ifStmt, Block.acts] using hx)
  | act a r => exact helse
  | ifThen e u r => exact helse
  | ifElse e u w r => exact helse

/-- An operand that is a register of its own is `LR`. -/
theorem operand {o : Operand} {q : RegName} (h : (liftOperand o).register? = some q) :
    ∀ r, q = .hexReg r → r ∈ writtenRegs := by
  rintro r rfl
  cases o with
  | regLr => cases h; decide
  | tmp n => cases n <;> cases h
  | regOld t id | regNew t id | ea | imm l | intcon n => cases h

theorem assg {lv : Operand} {l v : IlVal} {b : GBlock} (hl : l.register? = (liftOperand lv).register?)
    (h : Hex.assg l v = some b) : WritesNamed b := by
  simp only [Hex.assg, bind, Option.bind_eq_some_iff] at h
  obtain ⟨r, hr, h⟩ := h
  cases h
  exact setRegister (operand (hl ▸ hr))

theorem macroBranch {condJ : Bool} {loc : IlVal} {typ : BranchType} {b : GBlock}
    (h : macroBranch condJ loc typ = some b) :
    WritesNamed b := by
  have htaken : WritesNamed (if condJ then Hex.setRegister 1 .branchTaken (.const 1 1) else .nil) := by
    split
    · exact setRegister fun _ => RegName.noConfusion
    · exact nil
  have hdest : WritesNamed (Hex.setRegister 4 .branchrDest loc) := setRegister fun _ => RegName.noConfusion
  have hbranch : ∀ k, WritesNamed (.act (.branch k loc.expr) .nil) := fun k => mark fun _ => GenItem.noConfusion
  cases typ with
  | jump | jumpnew | call | ret => cases h; exact htaken.append (hbranch _)
  | jumpr | callr => cases h; exact (htaken.append hdest).append (hbranch _)
  | loopend0 | loopend1 =>
    simp only [Hex.macroBranch, Option.ite_none_right_eq_some, Option.some.injEq] at h
    rw [← h.2]
    exact (htaken.append hdest).append (hbranch _)

end WritesNamed

theorem transform_named {condJ : Bool} : ∀ {s : Stmt} {b : GBlock}, s.transform condJ = some b → WritesNamed b
  | .skip, b, h | .fImmext _, b, h => by cases h; exact .nil
  | .seq s t, b, h => by
    simp only [Stmt.transform, bind, Option.bind_eq_some_iff] at h
    obtain ⟨bs, hs, bt, ht, h⟩ := h
    cases h
    exact .append (transform_named hs) (transform_named ht)
  | .assg lv e, b, h | .assgBinop lv _ e, b, h => by
    simp only [Stmt.transform, bind, Option.bind_eq_some_iff] at h
    obtain ⟨v, -, h⟩ := h
    exact .assg rfl h
  | .ifThen c t, b, h => by
    simp only [Stmt.transform, bind, Option.bind_eq_some_iff] at h
    obtain ⟨v, -, bt, ht, h⟩ := h
    split at h
    · cases h
    · cases h; exact .ifStmt (transform_named ht) .nil
  | .ifElse c t f, b, h => by
    simp only [Stmt.transform, bind, Option.bind_eq_some_iff] at h
    obtain ⟨v, -, bt, ht, bf, hf, h⟩ := h
    split at h
    · cases h
    · cases h; exact .ifStmt (transform_named ht) (transform_named hf)
  | .fPcalign l, b, h => by cases h; exact .mark fun _ => GenItem.noConfusion
  | .fBranch loc typ, b, h | .fJumpr _ loc typ, b, h => by
    simp only [Stmt.transform, bind, Option.bind_eq_some_iff] at h
    obtain ⟨v, -, h⟩ := h
    exact .macroBranch h
  | .fTrap, b, h | .fBreak, b, h => by cases h; exact .insn fun _ h => absurd h List.not_mem_nil
  | .fStore size src, b, h => by
    simp only [Stmt.transform, bind, Option.bind_eq_some_iff] at h
    obtain ⟨v, -, h⟩ := h
    cases h
    exact .insn fun _ h => absurd h List.not_mem_nil
  | .fStoreLocked size src pred, b, h => by
    simp only [Stmt.transform, bind, Option.bind_eq_some_iff] at h
    obtain ⟨v, -, r, hr, h⟩ := h
    cases h
    exact .append (.insn fun _ h => absurd h List.not_mem_nil) (.setRegister (WritesNamed.operand hr))
  | .fLoad size signed dst, b, h => .assg rfl h
  | .fWriteFp a, b, h | .fWriteLr a, b, h | .fWriteSp a, b, h | .fSetLpcfg a, b, h => by
    simp only [Stmt.transform, bind, Option.bind_eq_some_iff] at h
    obtain ⟨v, -, h⟩ := h
    cases h
    exact .setRegister fun r h => by cases h; decide
  | .fWriteP n a, b, h => by
    simp only [Stmt.transform, bind, Option.bind_eq_some_iff] at h
    obtain ⟨v, -, h⟩ := h
    cases h
    exact .setRegister fun _ => RegName.noConfusion
  | .fWriteLoopRegs n start count, b, h => by
    simp only [Stmt.transform, bind, Option.bind_eq_some_iff] at h
    obtain ⟨v, -, w, -, h⟩ := h
    split at h <;> cases h <;>
      exact .append (.setRegister fun r h => by cases h; decide) (.setRegister fun r h => by cases h; decide)
  | .fWriteLc n a, b, h => by
    simp only [Stmt.transform, bind, Option.bind_eq_some_iff] at h
    obtain ⟨v, -, h⟩ := h
    split at h <;> cases h <;> exact .setRegister fun r h => by cases h; decide
  | .fSethalf n dst a, b, h | .fSetword n dst a, b, h => by
    simp only [Stmt.transform, bind, Option.bind_eq_some_iff] at h
    obtain ⟨v, -, r, hr, h⟩ := h
    split at h <;> cases h
    exact .setRegister (WritesNamed.operand hr)

theorem processSemantics_named {condJ : Bool} : ∀ {ps : List Stmt} {bs : List GBlock},
    processSemantics condJ ps = some bs → ∀ b ∈ bs, WritesNamed b
  | [], _, h, b, hb => by cases h; exact absurd hb List.not_mem_nil
  | p :: ps, _, h, b, hb => by
    simp only [processSemantics, bind, Option.bind_eq_some_iff] at h
    obtain ⟨c, hc, cs, hcs, h⟩ := h
    cases h
    rcases List.mem_cons.1 hb with rfl | hb
    · exact transform_named hc
    · exact processSemantics_named hcs b hb

theorem RegName.size_le (x : RegName) : x.size ≤ 8 := by
  cases x with
  | oldV t id | newN t id =>
    have := (regSize_le t id).2.2
    simp only [RegName.size]
    omega
  | hexReg r =>
    simp only [RegName.size]
    split <;> decide
  | _ => simp [RegName.size]

namespace Insn

variable {i : Insn} {n m q : Nat}

theorem semantics_named (i : Insn) : WritesNamed i.semantics := by
  rcases i.semantics_mem with h | ⟨bs, h, hb⟩
  · rw [h]; exact .nil
  · exact processSemantics_named h _ hb

theorem source_of_plain {x : RegName} {r : Nat} (h : (x, .plain r) ∈ i.places) : x ∈ i.opcode.sources := by
  rcases List.mem_append.1 h with h | h
  · obtain ⟨k, d, hd, hp, rfl⟩ := i.mem_operandPlaces h
    have hkind : d.kind = some .plain := by
      unfold place at hp
      split at hp <;> cases hp
      assumption
    refine List.mem_map.2 ⟨d, List.mem_filter.2 ⟨List.mem_of_getElem? hd, ?_⟩, rfl⟩
    rw [hkind]
    rfl
  · obtain ⟨m, -, he⟩ := List.mem_map.1 h
    cases he

/-- A register that a name stands for is that of the name, of an operand read in place, or `R0` for want of a
declaration. -/
theorem resolve_hex_cases {x : RegName} (h : i.resolve n x = .hex q) :
    x = .hexReg q ∨ (x, .plain q) ∈ i.places ∨ q = 0 := by
  have hlook : ((i.places.map fun p => (p.1, p.2.loc)).reverse.lookup x).getD (.hex 0) = .hex q →
      (x, .plain q) ∈ i.places ∨ q = 0 := by
    intro h
    cases hl : (i.places.map fun p => (p.1, p.2.loc)).reverse.lookup x with
    | none => rw [hl] at h; cases h; exact .inr rfl
    | some l =>
      rw [hl, Option.getD_some] at h
      subst h
      obtain ⟨l₁, l₂, he, -⟩ := List.lookup_eq_some_iff.1 hl
      have hmem : (x, .hex q) ∈ (i.places.map fun p => (p.1, p.2.loc)).reverse := by rw [he]; simp
      obtain ⟨⟨y, p⟩, hp, hy⟩ := List.mem_map.1 (List.mem_reverse.1 hmem)
      cases p with
      | plain r => cases hy; exact .inl hp
      | pair r | dest rw m r => cases hy
  cases x with
  | hexReg r => cases h; exact .inl rfl
  | eaReg | tmpReg | widthReg | offsetReg | shamtReg | branchrDest | branchTaken => cases h
  | oldV _ _ | newN _ _ | pd _ => exact .inr (hlook h)

/-- **What is written directly**: a register that the behaviour names. -/
theorem directWrites_named (h : (m, q) ∈ i.directWrites) :
    q ∈ writtenRegs ∧ m = (if q = hexRegUsrLpcfg then 1 else 4) ∨ q = 0 ∧ m ≤ 8 := by
  unfold directWrites at h
  split at h
  · rename_i hs
    obtain ⟨it, hit, h⟩ := List.mem_flatMap.1 h
    cases it with
    | branch k e => exact absurd h List.not_mem_nil
    | pcalign l => exact absurd h List.not_mem_nil
    | insn x =>
      obtain ⟨d, hd, h⟩ := List.mem_filterMap.1 h
      have hres : i.resolve 0 d.2 = .hex q ∧ d.1 = m := by
        split at h
        · rename_i q' hq
          cases h
          exact ⟨hq, rfl⟩
        · cases h
      obtain ⟨hres, rfl⟩ := hres
      have hsized : d.1 = d.2.size := (i.semantics_sized.1 x hit).2.1 d hd
      rcases resolve_hex_cases hres with hx | hx | rfl
      · rw [hsized, hx]
        exact .inl ⟨i.semantics_named x hit d hd q hx, rfl⟩
      · -- a source operand is assigned on no path
        obtain ⟨p, hp, hpx⟩ := Block.exists_path_of_act hit
        have hset : d.2 ∈ (Access.ofInsn x).sets := List.mem_map.2 ⟨d, hd, rfl⟩
        exact absurd (source_of_plain hx) (sets_of_scopedPath (Insn.scoped_paths hs p hp) _
          (List.mem_filterMap.2 ⟨_, hpx, rfl⟩) d.2 hset)
      · exact .inr ⟨rfl, hsized ▸ d.2.size_le⟩
  · exact absurd h List.not_mem_nil

theorem not_covers_pred {a : Nat} (h : (m, q) ∈ i.directWrites) (ha : regBase hexRegP0 ≤ a ∧ a ≤ regBase hexRegP3) :
    ¬ Covers m q a := by
  rintro ⟨h1, h2⟩
  have hp0 : regBase hexRegP0 = 144 := rfl
  have hp3 : regBase hexRegP3 = 147 := rfl
  rcases directWrites_named h with ⟨hq, rfl⟩ | ⟨rfl, hm⟩
  · simp only [writtenRegs, List.mem_cons, List.not_mem_nil, or_false] at hq
    rcases hq with rfl | rfl | rfl | rfl | rfl | rfl | rfl | rfl <;>
      simp only [regBase, hexRegSp, hexRegFp, hexRegLr, hexRegSa0, hexRegLc0, hexRegSa1, hexRegLc1, hexRegUsrLpcfg,
        hexRegP0, hexRegP3, hexRegP30, hexRegUsr] at h1 h2 <;> simp at h1 h2 <;> omega
  · have hb : regBase 0 = 0 := rfl
    omega

end Insn
end Hex
