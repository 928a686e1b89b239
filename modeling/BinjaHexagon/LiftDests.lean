import BinjaHexagon.LiftShape
/-!
# LiftDests — which temporaries a lifted instruction can write

The operands resolve to architectural registers or to temporaries below 200; only `macro_stmt_fBRANCH` reaches the
`BRANCHR_DEST` and `BRANCH_TAKEN` arrays, each at the instruction's own number.
-/
namespace Hex

open Flow (Block)

/-- A register of an operand: an architectural one, or a temporary of `TempReg`. -/
def LReg.Operand : LReg Temp → Prop
  | .hex _ => True
  | .temp (.reg ss r) => ss ≤ 1 ∧ r < numHexRegs
  | .temp _ => False

theorem LReg.Operand.index_lt {t : Temp} (h : (LReg.temp t).Operand) : t.index < 200 := by
  cases t with
  | reg ss r =>
    obtain ⟨h1, h2⟩ := h
    simp only [Temp.index, numHexRegs] at h2 ⊢
    have : ss * 100 ≤ 1 * 100 := Nat.mul_le_mul_right _ h1
    omega
  | _ => exact h.elim

theorem mapRegNum_lt {t : RegType} {n : Nat} (h : n < if t = .P then 4 else 32) : mapRegNum t n < numHexRegs := by
  cases t <;> simp [mapRegNum, hexRegR00, hexRegC00, hexRegP0, numHexRegs] at h ⊢ <;> omega

/-- What the declarations of an instruction stand for and write. -/
structure LiftState.Ok (st : LiftState) : Prop where
  env : ∀ p ∈ st.env, p.2.Operand
  code : ∀ c ∈ st.code, ∀ d ∈ c.dests, d.2.Operand
  silent : ∀ c ∈ st.code, ∀ d ∈ c.dests, ∀ r, d.2 ≠ .hex r

theorem dests_copyToTemp (size : Nat) (r : Nat) (ss : Nat) :
    (copyToTemp size r ss).dests = [(size, .temp (.reg ss r))] := by
  unfold copyToTemp
  split
  · rename_i h; rw [h]; rfl
  · rfl

theorem mem_addDestReg_code {ctx : PacketContext} {rw : Bool} {size : Nat} {r : Nat} {c : LInsn Temp}
    (h : c ∈ (ctx.addDestReg rw size r).2) : c = copyToTemp size r 0 := by
  unfold PacketContext.addDestReg at h
  split at h
  · exact absurd h List.not_mem_nil
  · cases rw with
    | true => exact List.mem_singleton.1 h
    | false => exact absurd h List.not_mem_nil

namespace LiftState.Ok

variable {st : LiftState}

/-- Adding a declaration of a `TempReg` below `NUM_HEX_REGS`. -/
theorem extend (h : st.Ok) {ctx : PacketContext} {name : RegName} {l : LReg Temp} (hl : l.Operand)
    {code : List (LInsn Temp)} (hc : ∀ c ∈ code, ∃ size r ss, c = copyToTemp size r ss ∧ ss ≤ 1 ∧ r < numHexRegs) :
    LiftState.Ok ⟨ctx, (name, l) :: st.env, st.code ++ code⟩ := by
  have hd : ∀ c ∈ code, ∀ d ∈ c.dests, ∃ ss r, d.2 = .temp (.reg ss r) ∧ ss ≤ 1 ∧ r < numHexRegs := by
    intro c hc' d hd
    obtain ⟨size, r, ss, rfl, h1, h2⟩ := hc c hc'
    rw [dests_copyToTemp, List.mem_singleton] at hd
    exact ⟨ss, r, by rw [hd], h1, h2⟩
  refine ⟨fun p hp => ?_, fun c hc' d hd' => ?_, fun c hc' d hd' r => ?_⟩
  · rcases List.mem_cons.1 hp with rfl | hp
    · exact hl
    · exact h.env p hp
  · rcases List.mem_append.1 hc' with hc' | hc'
    · exact h.code c hc' d hd'
    · obtain ⟨ss, r, hr, h1, h2⟩ := hd c hc' d hd'
      rw [hr]; exact ⟨h1, h2⟩
  · rcases List.mem_append.1 hc' with hc' | hc'
    · exact h.silent c hc' d hd' r
    · obtain ⟨ss, q, hq, -, -⟩ := hd c hc' d hd'
      rw [hq]; exact fun h => by cases h

theorem addDest (h : st.Ok) (name : RegName) (rw : Bool) (size : Nat) {r : Nat} (hr : r < numHexRegs) :
    (st.addDest name rw size r).Ok :=
  h.extend (show (LReg.temp (.reg 0 r)).Operand from ⟨Nat.zero_le 1, hr⟩) fun _ hc =>
    ⟨size, r, 0, mem_addDestReg_code hc, Nat.zero_le 1, hr⟩

theorem declare (h : st.Ok) {i : Insn} {n : Nat} {d : OperandDecl} (hd : i.opcode.regs[n]? = some d) :
    (st.declare i n d).Ok := by
  have hr : mapRegNum d.regtype (i.reg n) < numHexRegs := mapRegNum_lt (i.regno_lt n d hd)
  unfold LiftState.declare
  cases d.kind with
  | none => exact h
  | some k =>
    cases k with
    | plain =>
      refine ⟨fun p hp => ?_, h.code, h.silent⟩
      rcases List.mem_cons.1 hp with rfl | hp
      · trivial
      · exact h.env p hp
    | sourcePair =>
      refine h.extend (show (LReg.temp (.reg 1 _)).Operand from ⟨Nat.le_refl 1, hr⟩) fun c hc => ?_
      exact ⟨8, _, 1, List.mem_singleton.1 hc, Nat.le_refl 1, hr⟩
    | dest rw size => exact h.addDest _ _ _ hr

theorem declareAll {i : Insn} : ∀ {n : Nat} {ds : List OperandDecl} {st : LiftState}, st.Ok →
    (∀ k d, ds[k]? = some d → i.opcode.regs[n + k]? = some d) → (LiftState.declareAll i n ds st).Ok
  | _, [], _, h, _ => h
  | n, d :: ds, st, h, hd => by
    rw [LiftState.declareAll]
    refine declareAll (h.declare (hd 0 d rfl)) fun k e he => ?_
    have := hd (k + 1) e (by simpa using he)
    rwa [Nat.add_assoc, Nat.add_comm 1]

theorem declarePreds : ∀ {ns : List Nat} {st : LiftState}, st.Ok → (∀ n ∈ ns, n < 4) →
    (LiftState.declarePreds ns st).Ok
  | [], _, h, _ => h
  | n :: ns, st, h, hn => by
    rw [LiftState.declarePreds]
    refine declarePreds (h.addDest _ _ _ ?_) fun m hm => hn m (List.mem_cons_of_mem _ hm)
    exact mapRegNum_lt (t := .P) (hn n List.mem_cons_self)

end LiftState.Ok

theorem fixedPreds_lt : ∀ {ps : List Stmt} {n : Nat}, n ∈ fixedPreds ps → n < 4
  | [], _, h => absurd h List.not_mem_nil
  | p :: ps, n, h => by
    unfold fixedPreds at h
    split at h
    · split at h
      · rcases List.mem_cons.1 h with rfl | h
        · assumption
        · exact fixedPreds_lt (List.mem_of_mem_filter h)
      · exact fixedPreds_lt h
    · exact fixedPreds_lt h

theorem Insn.declared_ok (i : Insn) (ctx : PacketContext) : (i.declared ctx).Ok :=
  .declarePreds (.declareAll ⟨fun _ h => absurd h List.not_mem_nil, fun _ h => absurd h List.not_mem_nil,
    fun _ h => absurd h List.not_mem_nil⟩ fun k d h => by rwa [Nat.zero_add]) fun _ h => fixedPreds_lt h

theorem processSemantics_shape {condJ : Bool} : ∀ {ps : List Stmt} {bs : List GBlock},
    processSemantics condJ ps = some bs → ∀ b ∈ bs, Shape condJ b
  | [], _, h, b, hb => by cases h; exact absurd hb List.not_mem_nil
  | p :: ps, _, h, b, hb => by
    simp only [processSemantics, bind, Option.bind_eq_some_iff] at h
    obtain ⟨c, hc, cs, hcs, h⟩ := h
    cases h
    rcases List.mem_cons.1 hb with rfl | hb
    · exact transform_shape hc
    · exact processSemantics_shape hcs b hb

/-- **The behaviour of every instruction has the shape.** -/
theorem Insn.semantics_shape (i : Insn) : Shape i.isCondJump i.semantics := by
  unfold Insn.semantics
  split
  · rename_i b h; exact processSemantics_shape h b List.mem_cons_self
  · rename_i b₁ b₂ h
    split
    · exact processSemantics_shape h b₁ List.mem_cons_self
    · exact processSemantics_shape h b₂ (List.mem_cons_of_mem _ List.mem_cons_self)
  · exact .nil

theorem Shape.mem_acts {condJ : Bool} {b : GBlock} (h : Shape condJ b) :
    ∀ {x : IlInsn RegName ConstName}, .insn x ∈ b.acts →
      (∀ d ∈ x.dests, d.2.assignable = true) ∨ (∃ v, x = .setRegister 4 .branchrDest v) ∨
        (condJ = true ∧ x = .setRegister 1 .branchTaken (.const 1 (.lit 1))) := by
  induction h with
  | nil => exact fun h => absurd h List.not_mem_nil
  | insn i hi =>
    intro x hx
    obtain rfl : x = i := by simpa [Block.acts] using hx
    exact .inl hi
  | pcalign l => intro x hx; simp [Block.acts] at hx
  | branch loc typ b hb =>
    intro x hx
    cases condJ <;> cases typ <;> cases hb <;>
      simp [Hex.setRegister, Block.acts, IlVal.const] at hx <;> grind
  | append hb hk ihb ihk =>
    intro x hx
    rw [Block.acts_append, List.mem_append] at hx
    exact hx.elim ihb ihk
  | ifThen c ht ih =>
    intro x hx
    simp only [Block.acts, List.append_nil] at hx
    exact ih hx
  | ifElse c ht hf iht ihf =>
    intro x hx
    simp only [Block.acts, List.append_nil, List.mem_append] at hx
    exact hx.elim iht ihf

/-- An operand's name is looked up among the declarations. -/
theorem resolveReg_name (env : List (RegName × LReg Temp)) (n : Nat) (d : OperandDecl) :
    resolveReg env n d.name = (env.lookup d.name).getD (.hex 0) := by
  unfold OperandDecl.name
  split <;> rfl

theorem resolveReg_operand {env : List (RegName × LReg Temp)} (henv : ∀ p ∈ env, p.2.Operand) (n : Nat)
    {r : RegName} (hr : r.assignable = true) {t : Temp} (ht : resolveReg env n r = .temp t) : t.index < 200 := by
  have hlook : ∀ r, (env.lookup r).getD (.hex 0) = .temp t → t.index < 200 := by
    intro r h
    cases hl : env.lookup r with
    | none => rw [hl] at h; cases h
    | some l =>
      rw [hl, Option.getD_some] at h
      obtain ⟨p, hp, rfl⟩ : ∃ p ∈ env, p.2 = l := by
        have := List.lookup_eq_some_iff.1 hl
        obtain ⟨l₁, l₂, rfl, -⟩ := this
        exact ⟨(r, l), by simp, rfl⟩
      have := henv p hp
      rw [h] at this
      exact this.index_lt
  cases r with
  | branchrDest => cases hr
  | branchTaken => cases hr
  | hexReg q => cases ht
  | eaReg | tmpReg | widthReg | offsetReg | shamtReg => cases ht; decide
  | oldV t id => exact hlook _ ht
  | newN t id => exact hlook _ ht
  | pd k => exact hlook _ ht

/-- **What a lifted instruction can write**: operands and scratch variables below 200, the `BRANCHR_DEST` of its own
number, and its own flag, which it sets to 1. -/
theorem lift_dests {pc : BitVec 64} {i : Insn} {n : Nat} {ctx : PacketContext} {x : LInsn Temp}
    (hx : .il x ∈ (lift pc i n ctx).block.acts) {d : Nat × LReg Temp} (hd : d ∈ x.dests) {t : Temp}
    (ht : d.2 = .temp t) : t.index < 200 ∨ t = .branchrDest n ∨
      (t = .branchTaken n ∧ i.isCondJump = true ∧ x = .setRegister 1 (.temp (.branchTaken n)) (.const 1 1)) := by
  unfold lift at hx
  split at hx
  · have ok := i.declared_ok ctx
    simp only [Lifted.block, Block.acts_append, Block.acts_ofList, List.mem_append, List.mem_map] at hx
    rcases hx with ⟨c, hc, hcx⟩ | hx
    · cases hcx
      have := ok.code x hc d hd
      rw [ht] at this
      exact .inl this.index_lt
    · obtain ⟨it, hit, imms, him⟩ := Block.mem_acts_instantiate _ _ _ _ hx
      cases it with
      | branch k e => simp [LiftEnv.item] at him
      | pcalign l => simp [LiftEnv.item] at him
      | insn y =>
        simp only [LiftEnv.item, Option.some.injEq, LiftAct.il.injEq] at him
        subst him
        rcases i.semantics_shape.mem_acts hit with hy | ⟨v, rfl⟩ | ⟨hc, rfl⟩
        · rw [LiftEnv.insn, IlInsn.dests_subst, List.mem_map] at hd
          obtain ⟨e, he, rfl⟩ := hd
          exact .inl (resolveReg_operand ok.env n (hy e he) ht)
        · simp only [LiftEnv.insn, IlInsn.subst, IlInsn.dests, List.mem_singleton] at hd
          subst hd
          cases ht
          exact .inr (.inl rfl)
        · simp only [LiftEnv.insn, IlInsn.subst, IlInsn.dests, List.mem_singleton] at hd
          subst hd
          cases ht
          exact .inr (.inr ⟨rfl, hc, rfl⟩)
  · have : x = .undefined := by simpa [Lifted.block, Block.ofList, Block.acts] using hx
    rw [this] at hd
    exact absurd hd List.not_mem_nil

end Hex
