import BinjaHexagon.BranchRun
import BinjaHexagon.IlUtil
/-!
# RegFrame — register bytes that a packet leaves alone

What an instruction writes of the architectural registers is its direct writes and the copies of its destinations.
Bytes outside both come through the packet, whatever the order of the write-back.  `CopyToTemp` and `CopyFromTemp`
first, byte by byte: a pair is moved as two registers, everything else as one.
-/
namespace Hex

open Bytes (byte join norm)
open Flow (Block)

/-- A size that an operand of register `r` can have; a pair is never made of predicates. -/
structure Fits (size r : Nat) : Prop where
  le : size ≤ 8
  pair : size = 8 → r + 1 < hexRegP0

theorem regBase_of_lt {r : Nat} (h : r < hexRegP0) : regBase r = 4 * r := by
  have h94 : r ≠ hexRegUsrLpcfg := Nat.ne_of_lt (Nat.lt_trans h (by decide))
  rw [regBase, if_neg (by omega), if_neg h94]

theorem regBase_succ {r : Nat} (h : r + 1 < hexRegP0) : regBase (r + 1) = regBase r + 4 := by
  rw [regBase_of_lt h, regBase_of_lt (Nat.lt_of_succ_lt h), Nat.mul_succ]

theorem index_reg_zero (r : Nat) : (Temp.reg 0 r).index = r := by simp [Temp.index]

section Pair

variable {τ : Type} (s : State τ) {r : Nat}

theorem get_pair (h : r + 1 < hexRegP0) :
    (s.get 4 (.hex (r + 1)) <<< 32) ||| s.get 4 (.hex r) = s.get 8 (.hex r) := by
  simp only [State.get, regBase_succ h, Nat.add_assoc]
  exact Bytes.join_split fun i => s.reg (regBase r + i)

end Pair

theorem exec_copyToTemp {size r : Nat} (h : Fits size r) (ss : Nat) (s : PhysState) :
    ((copyToTemp size r ss).map LReg.index).exec s = s.setTemp size (Temp.reg ss r).index (s.get size (.hex r)) := by
  unfold copyToTemp
  split
  · rename_i h8
    subst h8
    simp only [IlInsn.map, IlInsn.subst, IlExpr.subst, IlInsn.exec, LReg.map, State.set, IlExpr.eval]
    rw [← get_pair s (h.pair rfl)]
  · rfl

/-- **`CopyToTemp` loads the temporary with the register's bytes.** -/
theorem temp_copyToTemp {size r : Nat} (h : Fits size r) (ss : Nat) (s : PhysState) {i : Nat} (hi : i < size) :
    (((copyToTemp size r ss).map LReg.index).exec s).temp (Temp.reg ss r).index i = s.reg (regBase r + i) := by
  rw [exec_copyToTemp h]
  simp only [State.setTemp, hi, true_and, if_true, State.get]
  exact Bytes.byte_join _ hi h.le

/-- **`CopyFromTemp` stores the temporary's bytes in the register** and leaves every other byte. -/
theorem reg_copyFromTemp {d : DestReg} (h : Fits d.size d.reg) (s : PhysState) (a : Nat) :
    ((d.copyFromTemp.map LReg.index).exec s).reg a =
      if regBase d.reg ≤ a ∧ a < regBase d.reg + d.size then s.temp d.reg (a - regBase d.reg) else s.reg a := by
  unfold DestReg.copyFromTemp
  split
  · rename_i h8
    have hb : ∀ i < 8, byte (s.get 8 (.temp d.reg)) i = s.temp d.reg i := fun i hi => Bytes.byte_join _ hi (by decide)
    simp only [IlInsn.map, IlInsn.subst, IlExpr.subst, IlInsn.exec, LReg.map, State.set, IlExpr.eval, index_reg_zero,
      State.setReg, regBase_succ (h.pair h8), Bytes.byte_ushiftRight, h8]
    by_cases hlo : regBase d.reg ≤ a ∧ a < regBase d.reg + 4
    · rw [if_neg (by omega), if_pos hlo, if_pos (by omega), hb _ (by omega)]
    · by_cases hhi : regBase d.reg + 4 ≤ a ∧ a < regBase d.reg + 4 + 4
      · rw [if_pos hhi, if_pos (by omega), hb _ (by omega)]
        exact congrArg _ (by omega)
      · rw [if_neg hhi, if_neg hlo, if_neg (by omega)]
  · simp only [IlInsn.map, IlInsn.subst, IlExpr.subst, IlInsn.exec, LReg.map, State.set, IlExpr.eval, index_reg_zero,
      State.setReg, State.get]
    split
    · exact Bytes.byte_join _ (by omega) h.le
    · rfl

section Insns

variable {τ : Type}

/-- No write to one of the bytes `B`. -/
def IlInsn.Spares (x : LInsn τ) (B : List Nat) : Prop :=
  ∀ d ∈ x.dests, ∀ r, d.2 = .hex r → ∀ b ∈ B, ¬ (regBase r ≤ b ∧ b < regBase r + d.1)

variable {B : List Nat} {b : Nat}

theorem IlInsn.Spares.map {τ' : Type} {f : τ → τ'} {x : LInsn τ} (h : x.Spares B) :
    (IlInsn.map (LReg.map f) x : LInsn τ').Spares B := by
  intro d hd r hr
  rw [IlInsn.map, IlInsn.dests_subst, List.mem_map] at hd
  obtain ⟨e, he, rfl⟩ := hd
  cases hl : e.2 with
  | hex q =>
    rw [hl] at hr
    cases hr
    exact h e he _ hl
  | temp t =>
    rw [hl] at hr
    cases hr

variable [DecidableEq τ]

theorem State.set_spares {n : Nat} {l : LReg τ} {v : BitVec 64}
    (h : ∀ r, l = .hex r → ¬ (regBase r ≤ b ∧ b < regBase r + n)) (s : State τ) : (s.set n l v).reg b = s.reg b := by
  cases l with
  | hex r => exact if_neg (h r rfl)
  | temp t => rfl

theorem IlInsn.exec_spares {x : LInsn τ} (h : x.Spares B) (hb : b ∈ B) (s : State τ) :
    (x.exec s).reg b = s.reg b := by
  cases x with
  | setRegister n l v => exact State.set_spares (fun r hr => h (n, l) List.mem_cons_self r hr b hb) s
  | setRegisterSplit n hi lo v =>
    have hhi := State.set_spares (v := v.eval s >>> (8 * n)) (fun r hr => h (n, hi) List.mem_cons_self r hr b hb)
      (s.set n lo (v.eval s))
    have hlo := State.set_spares (v := v.eval s)
      (fun r hr => h (n, lo) (List.mem_cons_of_mem _ List.mem_cons_self) r hr b hb) s
    exact hhi.trans hlo
  | store n a v => rfl
  | systemCall | breakpoint | undefined => rfl

end Insns

variable {B : List Nat} {b : Nat}

theorem reg_execAll_spares : ∀ {xs : List (LInsn Nat)}, (∀ x ∈ xs, x.Spares B) → b ∈ B → ∀ s : PhysState,
    (execAll xs s).reg b = s.reg b
  | [], _, _, _ => rfl
  | x :: _, h, hb, s =>
    (reg_execAll_spares (fun y hy => h y (List.mem_cons_of_mem _ hy)) hb (x.exec s)).trans
      (IlInsn.exec_spares (h x List.mem_cons_self) hb s)

theorem bodySem_spares {a : LiftAct} (h : ∀ x, a = .il x → x.Spares B) (hb : b ∈ B) (s : PhysState) :
    (bodySem.exec a s).reg b = s.reg b := by
  cases a with
  | il x => exact IlInsn.exec_spares (h x rfl).map hb s
  | branch k d => rfl

/-- An instruction that writes none of these bytes, whatever packet it stands in. -/
def Insn.Spares (i : Insn) (B : List Nat) : Prop :=
  ∀ pc n ctx, (∀ x, .il x ∈ (lift pc i n ctx).block.acts → x.Spares B) ∧
    ∀ d ∈ (lift pc i n ctx).ctx.regs, d ∈ ctx.regs ∨ d.copyFromTemp.Spares B

theorem Insn.Spares.run {i : Insn} (h : i.Spares B) (hb : b ∈ B) (pc : BitVec 64) (n : Nat) (ctx : PacketContext)
    (s : PhysState) : ((lift pc i n ctx).block.run bodySem s).reg b = s.reg b := by
  refine Block.run_induction bodySem (fun s' => s'.reg b = s.reg b) _ (fun a ha s' hs' => ?_) s rfl
  rw [← hs']
  refine bodySem_spares (fun x hx => ?_) hb s'
  rw [hx] at ha
  exact (h pc n ctx).1 x ha

section Packet

variable {pc : BitVec 64}

theorem liftInsns_append : ∀ (is js : List Insn) (n : Nat) (ctx : PacketContext),
    liftInsns pc n (is ++ js) ctx = liftInsns pc n is ctx ++
      liftInsns pc (n + is.length) js (lastCtx ctx (liftInsns pc n is ctx))
  | [], _, _, _ => rfl
  | i :: is, js, n, ctx => by
    rw [List.cons_append, liftInsns, liftInsns_append is js, liftInsns, lastCtx, List.cons_append, List.length_cons,
      Nat.add_assoc, Nat.add_comm 1]

theorem lastCtx_append (ctx : PacketContext) : ∀ ls ms : List Lifted,
    lastCtx ctx (ls ++ ms) = lastCtx (lastCtx ctx ls) ms
  | [], _ => rfl
  | l :: ls, ms => lastCtx_append l.ctx ls ms

theorem run_packetBody_append (ls ms : List Lifted) (s : PhysState) :
    (packetBody (ls ++ ms)).run bodySem s = (packetBody ms).run bodySem ((packetBody ls).run bodySem s) := by
  rw [packetBody, List.map_append, Block.flatten_append, Block.run_append, packetBody, packetBody]

theorem reg_packetBody_spares : ∀ {is : List Insn} {n : Nat} {ctx : PacketContext}, (∀ i ∈ is, i.Spares B) → b ∈ B →
    ∀ s : PhysState, ((packetBody (liftInsns pc n is ctx)).run bodySem s).reg b = s.reg b
  | [], _, _, _, _, _ => rfl
  | i :: is, n, ctx, h, hb, s => by
    rw [liftInsns, run_packetBody_cons, reg_packetBody_spares (fun j hj => h j (List.mem_cons_of_mem _ hj)) hb]
    exact (h i List.mem_cons_self).run hb pc n ctx s

theorem lastCtx_spares : ∀ {is : List Insn} {n : Nat} {ctx : PacketContext}, (∀ i ∈ is, i.Spares B) →
    ∀ d ∈ (lastCtx ctx (liftInsns pc n is ctx)).regs, d ∈ ctx.regs ∨ d.copyFromTemp.Spares B
  | [], _, _, _, _, hd => .inl hd
  | i :: is, n, ctx, h, d, hd => by
    rcases lastCtx_spares (fun j hj => h j (List.mem_cons_of_mem _ hj)) d hd with hd | hd
    · exact (h i List.mem_cons_self pc n ctx).2 d hd
    · exact .inr hd

end Packet

section WriteBack

variable {h : HashOrder} {ctx : PacketContext}

/-- A byte no destination covers comes through the write-back. -/
theorem reg_writeBack_spares (hs : ∀ d ∈ ctx.regs, d.copyFromTemp.Spares B) (hb : b ∈ B) (s : PhysState) :
    (execAll (writeClobberedRegs h ctx) s).reg b = s.reg b := by
  refine reg_execAll_spares (fun x hx => ?_) hb s
  obtain ⟨d, hd, rfl⟩ := List.mem_map.1 hx
  exact (hs d ((h.perm _).mem_iff.1 hd)).map

/-- **A byte that one destination covers gets that destination's temporary**, in any order. -/
theorem reg_writeBack {d : DestReg} (hd : d ∈ ctx.regs) (hf : Fits d.size d.reg)
    (hb : regBase d.reg ≤ b ∧ b < regBase d.reg + d.size)
    (hs : ∀ e ∈ ctx.regs, e ≠ d → e.copyFromTemp.Spares [b]) (s : PhysState) :
    (execAll (writeClobberedRegs h ctx) s).reg b = s.temp d.reg (b - regBase d.reg) := by
  have hall : ∀ (l : List DestReg) (s : PhysState), (∀ e ∈ l, e ≠ d → e.copyFromTemp.Spares [b]) →
      (execAll (l.map fun d => d.copyFromTemp.map LReg.index) s).reg b =
        if d ∈ l then s.temp d.reg (b - regBase d.reg) else s.reg b := by
    intro l
    induction l with
    | nil => exact fun _ _ => rfl
    | cons e l ih =>
      intro s hl
      have htemp : ((e.copyFromTemp.map LReg.index).exec s).temp = s.temp := by
        unfold DestReg.copyFromTemp
        split <;> rfl
      rw [List.map_cons, execAll, List.foldl_cons, ← execAll, ih _ fun e he => hl e (List.mem_cons_of_mem _ he), htemp]
      by_cases he : e = d
      · subst he
        rw [reg_copyFromTemp hf, if_pos hb, ite_self, if_pos List.mem_cons_self]
      · rw [IlInsn.exec_spares (hl e List.mem_cons_self he).map List.mem_cons_self]
        simp [Ne.symm he]
  rw [writeClobberedRegs, hall _ _ fun e he => hs e ((h.perm _).mem_iff.1 he), if_pos ((h.perm _).mem_iff.2 hd)]

end WriteBack

/-- **Bytes that no instruction writes come through the packet.** -/
theorem reg_packetState_spares {h : HashOrder} {pc : BitVec 64} {is : List Insn} (hs : ∀ i ∈ is, i.Spares B)
    (hb : b ∈ B) (s : PhysState) : (packetState h pc is s).reg b = s.reg b := by
  rw [packetState, reg_writeBack_spares (fun d hd => (lastCtx_spares hs d hd).resolve_left List.not_mem_nil) hb,
    bodyState, reg_packetBody_spares hs hb]

theorem reg_execAll_clear : ∀ (is : List Insn) (n : Nat) (s : PhysState), (execAll (clearTaken n is) s).reg = s.reg
  | [], _, _ => rfl
  | i :: is, n, s => by
    unfold clearTaken
    split
    · exact reg_execAll_clear is (n + 1) ((clearFlag n).exec s)
    · exact reg_execAll_clear is (n + 1) s

theorem reg_initFlags (cof : Bool) (is : List Insn) (s : PhysState) : (execAll (initFlags cof is) s).reg = s.reg := by
  cases cof with
  | false => rfl
  | true => exact reg_execAll_clear is 0 s

end Hex
