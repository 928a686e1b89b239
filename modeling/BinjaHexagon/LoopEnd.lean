import BinjaHexagon.BranchTarget
import BinjaHexagon.LoopRegs
import BinjaHexagon.RegFrame
/-!
# LoopEnd — what is emitted for an end of a loop

The lifted `endloop` compares the counts with sign and counts down a whole byte of `USR`.  From counts below 2^31 and a
byte that holds nothing but `LPCFG` it does what the reference does.
-/
namespace Hex

open Bytes (norm)
open Flow (Block)

section Code

def lpcfgExpr : LExpr Temp := .register 1 (.hex hexRegUsrLpcfg)

def countdownThen : LiftBlock :=
  .ifThen (.compare .equal 1 lpcfgExpr (.const 4 1))
    (.act (.il (.setRegister 1 (.temp (.reg 0 hexRegP3)) (.const 4 0xff))) .nil)
    (.act (.il (.setRegister 1 (.hex hexRegUsrLpcfg) (.binop .sub 1 lpcfgExpr (.const 4 1)))) .nil)

def countdownBlock (rest : LiftBlock) : LiftBlock := .ifThen lpcfgExpr countdownThen rest

def iteratesExpr (k : Nat) : LExpr Temp := .compare .signedGreaterThan 4 (.register 4 (.hex (hexRegLc k))) (.const 4 1)

def backBlock (n k : Nat) : LiftBlock :=
  .act (.il (.setRegister 1 (.temp (.branchTaken n)) (.const 1 1)))
    (.act (.il (.setRegister 4 (.temp (.branchrDest n)) (.register 4 (.hex (hexRegSa k)))))
      (.act (.branch .jump (.register 4 (.hex (hexRegSa k))))
        (.act (.il (.setRegister 4 (.hex (hexRegLc k))
          (.binop .sub 4 (.register 4 (.hex (hexRegLc k))) (.const 4 1)))) .nil)))

namespace EndKind

/-- The body of the lift function, at number `n` of its packet. -/
def block (n : Nat) : EndKind → LiftBlock
  | endloop0 => countdownBlock (.ifThen (iteratesExpr 0) (backBlock n 0) .nil)
  | endloop1 => .ifThen (iteratesExpr 1) (backBlock n 1) .nil
  | endloop01 =>
    countdownBlock (.ifElse (iteratesExpr 0) (backBlock n 0) (.ifThen (iteratesExpr 1) (backBlock n 1) .nil) .nil)

variable {e : EndKind} {i : Insn} (hi : i.opcode.toOpcodeRow = e.opcode.toOpcodeRow)

include hi

theorem body_lift (pc : BitVec 64) (n : Nat) (ctx : PacketContext) : (lift pc i n ctx).body = e.block n := by
  obtain ⟨⟨row, _, _, _, _⟩, regno, immed, part1, ext, _⟩ := i
  dsimp only at hi
  subst hi
  cases e <;> rfl

/-- An end of loop 0 has `P3` for a destination that it reads. -/
theorem decls_lift (pc : BitVec 64) (n : Nat) (ctx : PacketContext) :
    ((lift pc i n ctx).ctx, (lift pc i n ctx).decls) =
      if e.ends 0 then ctx.addDestReg true 1 hexRegP3 else (ctx, []) := by
  obtain ⟨⟨row, _, _, _, _⟩, regno, immed, part1, ext, _⟩ := i
  dsimp only at hi
  subst hi
  cases e <;> rfl

end EndKind
end Code

section Run

variable (s : PhysState)

/-- The register bytes of the loops, with `P3` as the packet's temporary has it. -/
def loopTemps (s : PhysState) : LoopRegs where
  lc0 := (s.get 4 (.hex hexRegLc0)).setWidth 32
  lc1 := (s.get 4 (.hex hexRegLc1)).setWidth 32
  lpcfg := (s.get 1 (.hex hexRegUsrLpcfg)).setWidth 2
  p3 := s.temp hexRegP3 0

def countdownState : PhysState :=
  if s.get 1 (.hex hexRegUsrLpcfg) = 0 then s
  else (if s.get 1 (.hex hexRegUsrLpcfg) = 1 then s.setTemp 1 hexRegP3 0xff else s).setReg 1 hexRegUsrLpcfg
    (norm 1 (s.get 1 (.hex hexRegUsrLpcfg) - 1))

def backState (n k : Nat) : PhysState :=
  ((s.setTemp 1 (210 + n) 1).setTemp 4 (200 + n) (s.get 4 (.hex (hexRegSa k)))).setReg 4 (hexRegLc k)
    (norm 4 (s.get 4 (.hex (hexRegLc k)) - 1))

def iterates (k : Nat) : Bool := decide (1 < toSigned 4 (s.get 4 (.hex (hexRegLc k))))

theorem run_countdown (rest : LiftBlock) :
    (countdownBlock rest).run bodySem s = rest.run bodySem (countdownState s) := by
  have hread : (lpcfgExpr.map LReg.index).eval s = s.get 1 (.hex hexRegUsrLpcfg) := rfl
  have htest : bodySem.test lpcfgExpr s = (s.get 1 (.hex hexRegUsrLpcfg) != 0) := rfl
  have hone : bodySem.test (.compare .equal 1 lpcfgExpr (.const 4 1)) s = (s.get 1 (.hex hexRegUsrLpcfg) == 1) := by
    refine (IlExpr.test_compare _ _ _ _ _).trans ?_
    change (norm 1 (s.get 1 (.hex hexRegUsrLpcfg)) == norm 1 (norm 4 1)) = _
    rw [State.get, Bytes.norm_join _ (by decide)]
    rfl
  rw [countdownBlock, Block.run, htest]
  refine congrArg (rest.run bodySem) ?_
  unfold countdownState
  by_cases hz : s.get 1 (.hex hexRegUsrLpcfg) = 0
  · rw [hz, if_pos rfl]
    rfl
  · have hne : (s.get 1 (.hex hexRegUsrLpcfg) != 0) = true := by rw [bne_iff_ne]; exact hz
    rw [if_neg hz, if_pos hne, countdownThen, Block.run, hone]
    by_cases h1 : s.get 1 (.hex hexRegUsrLpcfg) = 1
    · rw [h1, if_pos rfl, if_pos (beq_self_eq_true _)]
      change State.setReg 1 hexRegUsrLpcfg (norm 1
        (((s.setTemp 1 hexRegP3 (norm 4 0xff)).get 1 (.hex hexRegUsrLpcfg)) - norm 4 1)) _ = _
      rw [State.get_setTemp_hex, h1]
      rfl
    · rw [if_neg h1, if_neg (by simpa using h1)]
      rfl

theorem run_back (n k : Nat) : (backBlock n k).run bodySem s = backState s n k := rfl

theorem test_iterates (k : Nat) : bodySem.test (iteratesExpr k) s = iterates s k :=
  IlExpr.test_compare _ _ _ _ _

end Run

section Usr

/-- `USR` without its field `LPCFG`. -/
def usrRest (s : PhysState) : BitVec 64 := s.get 4 (.hex hexRegUsr) &&& ~~~0x300

/-- Bits 10 to 15 of `USR`, which the lifter takes for a part of `LPCFG`. -/
def usrHigh (s : PhysState) : BitVec 64 := s.get 4 (.hex hexRegUsr) &&& 0xfc00

variable {s s' : PhysState}

theorem getLsbD_usr (s : PhysState) (i : Nat) : (s.get 4 (.hex hexRegUsr)).getLsbD i =
    (decide (i < 32) && (s.reg (160 + i / 8)).getLsbD (i % 8)) :=
  Bytes.getLsbD_join (fun j => s.reg (regBase hexRegUsr + j)) 4 i (by decide)

theorem getLsbD_lpcfg (s : PhysState) (i : Nat) : (s.get 1 (.hex hexRegUsrLpcfg)).getLsbD i =
    (decide (i < 8) && (s.reg (161 + i / 8)).getLsbD (i % 8)) :=
  Bytes.getLsbD_join (fun j => s.reg (regBase hexRegUsrLpcfg + j)) 1 i (by decide)

theorem getLsbD_notLpcfg (i : Nat) : (0x300 : BitVec 64).getLsbD i = (i == 8 || i == 9) := by
  have hlow : ∀ i < 64, (0x300 : BitVec 64).getLsbD i = (i == 8 || i == 9) := by decide
  by_cases h : i < 64
  · exact hlow i h
  · rw [BitVec.getLsbD_of_ge _ _ (by omega)]
    symm
    simp only [Bool.or_eq_false_iff, beq_eq_false_iff_ne]
    omega

theorem getLsbD_high {i : Nat} (h : 10 ≤ i) (h' : i < 16) : (0xfc00 : BitVec 64).getLsbD i = true := by
  have hall : ∀ i < 16, 10 ≤ i → (0xfc00 : BitVec 64).getLsbD i = true := by decide
  exact hall i h' h

theorem usrRest_congr (h : ∀ i < 32, i ≠ 8 → i ≠ 9 →
    (s'.reg (160 + i / 8)).getLsbD (i % 8) = (s.reg (160 + i / 8)).getLsbD (i % 8)) : usrRest s' = usrRest s := by
  refine BitVec.eq_of_getLsbD_eq fun i hi => ?_
  rw [usrRest, usrRest, BitVec.getLsbD_and, BitVec.getLsbD_and, BitVec.getLsbD_not, getLsbD_notLpcfg, getLsbD_usr,
    getLsbD_usr]
  by_cases h32 : i < 32
  · by_cases hf : i = 8 ∨ i = 9
    · rcases hf with rfl | rfl <;> simp
    · rw [h i h32 (fun h => hf (.inl h)) fun h => hf (.inr h)]
  · simp [h32]

theorem lpcfg_lt (h : usrHigh s = 0) : s.get 1 (.hex hexRegUsrLpcfg) < 4 := by
  refine Nat.lt_pow_two_of_testBit (n := 2) _ fun i hi => ?_
  change (s.get 1 (.hex hexRegUsrLpcfg)).getLsbD i = false
  rw [getLsbD_lpcfg]
  by_cases h8 : i < 8
  · have hbit := congrArg (·.getLsbD (8 + i)) h
    simp only [usrHigh, BitVec.getLsbD_and, getLsbD_usr, getLsbD_high (show 10 ≤ 8 + i by omega)
      (show 8 + i < 16 by omega), show 8 + i < 32 by omega, show (8 + i) / 8 = 1 by omega,
      show (8 + i) % 8 = i by omega, decide_true, Bool.true_and, Bool.and_true] at hbit
    rw [show i / 8 = 0 by omega, show i % 8 = i by omega]
    exact (congrArg _ hbit).trans (by simp)
  · simp [h8]

/-- A field of two bits written over a byte of two bits changes nothing else. -/
theorem usrRest_setLpcfg {v : BitVec 64} (hs : s.get 1 (.hex hexRegUsrLpcfg) < 4) (hv : v < 4) :
    usrRest (s.setReg 1 hexRegUsrLpcfg v) = usrRest s := by
  have hbits : ∀ {w : BitVec 64} {j : Nat}, w < 4 → 2 ≤ j → w.getLsbD j = false := fun {w j} hw hj =>
    Nat.testBit_lt_two_pow (Nat.lt_of_lt_of_le (show w.toNat < 2 ^ 2 from hw) (Nat.pow_le_pow_right (by decide) hj))
  refine usrRest_congr fun i hi h8 h9 => ?_
  have hreg : (s.setReg 1 hexRegUsrLpcfg v).reg (160 + i / 8) =
      if i / 8 = 1 then Bytes.byte v 0 else s.reg (160 + i / 8) := by
    change (if 161 ≤ 160 + i / 8 ∧ 160 + i / 8 < 161 + 1 then Bytes.byte v (160 + i / 8 - 161) else _) = _
    by_cases h1 : i / 8 = 1
    · rw [if_pos (by omega), if_pos h1, h1]
    · rw [if_neg (by omega), if_neg h1]
  rw [hreg]
  by_cases h1 : i / 8 = 1
  · have hold := getLsbD_lpcfg s (i % 8)
    rw [hbits hs (by omega)] at hold
    rw [if_pos h1, Bytes.getLsbD_byte, hbits hv (by omega), Bool.and_false, h1]
    simpa [show i % 8 < 8 by omega, show i % 8 / 8 = 0 by omega] using hold
  · rw [if_neg h1]

end Usr

section Reference

variable {s : PhysState}

theorem loopTemps_setTemp (s : PhysState) (n t : Nat) (v : BitVec 64) (h : t ≠ hexRegP3) :
    loopTemps (s.setTemp n t v) = loopTemps s := by
  unfold loopTemps
  rw [State.setTemp_temp_ne s n v (Ne.symm h)]
  rfl

theorem loopTemps_setLpcfg (s : PhysState) (v : BitVec 64) :
    loopTemps (s.setReg 1 hexRegUsrLpcfg v) = { loopTemps s with lpcfg := (norm 1 v).setWidth 2 } := by
  have h0 : (s.setReg 1 hexRegUsrLpcfg v).get 4 (.hex hexRegLc0) = s.get 4 (.hex hexRegLc0) :=
    State.get_setReg_apart s 1 v (by decide)
  have h1 : (s.setReg 1 hexRegUsrLpcfg v).get 4 (.hex hexRegLc1) = s.get 4 (.hex hexRegLc1) :=
    State.get_setReg_apart s 1 v (by decide)
  unfold loopTemps
  rw [h0, h1, State.get_setReg_same _ _ _ _ (by decide)]
  rfl

theorem setWidth_sub_one (v : BitVec 64) : (norm 4 (v - 1)).setWidth 32 = v.setWidth 32 - 1 := by
  unfold Bytes.norm
  rw [BitVec.setWidth_setWidth_of_le _ (by decide)]
  refine BitVec.eq_of_toNat_eq ?_
  have h1 : (1 : BitVec 64).toNat = 1 := rfl
  have h2 : (1 : BitVec 32).toNat = 1 := rfl
  rw [BitVec.setWidth_setWidth_of_le _ (by decide), BitVec.toNat_setWidth, BitVec.toNat_sub, BitVec.toNat_sub,
    BitVec.toNat_setWidth, h1, h2]
  omega

theorem lpcfg_cases {c : BitVec 64} (h : c < 4) : c = 0 ∨ c = 1 ∨ c = 2 ∨ c = 3 := by
  have h4 : c.toNat < 4 := h
  have hnat : c.toNat = 0 ∨ c.toNat = 1 ∨ c.toNat = 2 ∨ c.toNat = 3 := by omega
  rcases hnat with h | h | h | h
  · exact .inl (BitVec.eq_of_toNat_eq h)
  · exact .inr (.inl (BitVec.eq_of_toNat_eq h))
  · exact .inr (.inr (.inl (BitVec.eq_of_toNat_eq h)))
  · exact .inr (.inr (.inr (BitVec.eq_of_toNat_eq h)))

/-- **The byte is counted down like the field**, and what else is in `USR` stays. -/
theorem countdownState_spec (h : s.get 1 (.hex hexRegUsrLpcfg) < 4) :
    loopTemps (countdownState s) = (loopTemps s).countdown ∧ usrRest (countdownState s) = usrRest s ∧
      ∀ k, (countdownState s).get 4 (.hex (hexRegSa k)) = s.get 4 (.hex (hexRegSa k)) := by
  have hsa : ∀ (t : PhysState) v k, (t.setReg 1 hexRegUsrLpcfg v).get 4 (.hex (hexRegSa k)) =
      t.get 4 (.hex (hexRegSa k)) := fun t v k => State.get_setReg_apart t 1 v (by
        unfold hexRegSa
        split <;> decide)
  have hset : ∀ (t : PhysState) v, t.get 1 (.hex hexRegUsrLpcfg) < 4 → v < 4 →
      loopTemps (t.setReg 1 hexRegUsrLpcfg v) = { loopTemps t with lpcfg := (norm 1 v).setWidth 2 } ∧
        usrRest (t.setReg 1 hexRegUsrLpcfg v) = usrRest t ∧
          ∀ k, (t.setReg 1 hexRegUsrLpcfg v).get 4 (.hex (hexRegSa k)) = t.get 4 (.hex (hexRegSa k)) :=
    fun t v ht hv => ⟨loopTemps_setLpcfg t v, usrRest_setLpcfg ht hv, hsa t v⟩
  have hcfg : (loopTemps s).lpcfg = (s.get 1 (.hex hexRegUsrLpcfg)).setWidth 2 := rfl
  unfold countdownState LoopRegs.countdown
  rw [hcfg]
  rcases lpcfg_cases h with hc | hc | hc | hc
  · rw [hc]
    exact ⟨rfl, rfl, fun _ => rfl⟩
  · rw [hc]
    exact hset (s.setTemp 1 hexRegP3 0xff) (norm 1 (1 - 1)) h (by decide)
  · rw [hc]
    exact hset s (norm 1 (2 - 1)) h (by decide)
  · rw [hc]
    exact hset s (norm 1 (3 - 1)) h (by decide)

theorem loopTemps_setLc {k : Nat} (hk : k = 0 ∨ k = 1) (s : PhysState) :
    loopTemps (s.setReg 4 (hexRegLc k) (norm 4 (s.get 4 (.hex (hexRegLc k)) - 1))) = (loopTemps s).iterate k := by
  have hsame : ∀ r v, ((s.setReg 4 r v).get 4 (.hex r)) = norm 4 v := fun r v =>
    State.get_setReg_same s 4 v r (by decide)
  rcases hk with rfl | rfl
  · have h1 : ∀ v, (s.setReg 4 hexRegLc0 v).get 4 (.hex hexRegLc1) = s.get 4 (.hex hexRegLc1) := fun v =>
      State.get_setReg_apart s 4 v (by decide)
    have h2 : ∀ v, (s.setReg 4 hexRegLc0 v).get 1 (.hex hexRegUsrLpcfg) = s.get 1 (.hex hexRegUsrLpcfg) := fun v =>
      State.get_setReg_apart s 4 v (by decide)
    unfold loopTemps LoopRegs.iterate
    simp only [hexRegLc, if_true, hsame, h1, h2, Bytes.norm_norm, setWidth_sub_one]
    rfl
  · have h0 : ∀ v, (s.setReg 4 hexRegLc1 v).get 4 (.hex hexRegLc0) = s.get 4 (.hex hexRegLc0) := fun v =>
      State.get_setReg_apart s 4 v (by decide)
    have h2 : ∀ v, (s.setReg 4 hexRegLc1 v).get 1 (.hex hexRegUsrLpcfg) = s.get 1 (.hex hexRegUsrLpcfg) := fun v =>
      State.get_setReg_apart s 4 v (by decide)
    unfold loopTemps LoopRegs.iterate
    simp only [hexRegLc, Nat.one_ne_zero, if_false, hsame, h0, h2, Bytes.norm_norm, setWidth_sub_one]
    rfl

/-- The branch back: the count is one less, and the destination is the loop's start. -/
theorem backState_spec {k : Nat} (hk : k = 0 ∨ k = 1) (s : PhysState) (n : Nat) :
    loopTemps (backState s n k) = (loopTemps s).iterate k ∧ usrRest (backState s n k) = usrRest s ∧
      (backState s n k).get 4 (.temp (200 + n)) = s.get 4 (.hex (hexRegSa k)) := by
  have hsa : norm 4 (s.get 4 (.hex (hexRegSa k))) = s.get 4 (.hex (hexRegSa k)) := Bytes.norm_join _ (by decide)
  have hp3 : ∀ m, 200 + m ≠ hexRegP3 := fun m h => absurd (h.symm ▸ Nat.le_add_right 200 m : 200 ≤ hexRegP3) (by decide)
  refine ⟨?_, ?_, ?_⟩
  · have htemps : loopTemps ((s.setTemp 1 (210 + n) 1).setTemp 4 (200 + n) (s.get 4 (.hex (hexRegSa k)))) =
        loopTemps s := by
      rw [loopTemps_setTemp _ _ _ _ (hp3 n), loopTemps_setTemp _ _ _ _ (by have := hp3 (10 + n); omega)]
    rw [← htemps]
    exact loopTemps_setLc hk ((s.setTemp 1 (210 + n) 1).setTemp 4 (200 + n) (s.get 4 (.hex (hexRegSa k))))
  · refine usrRest_congr fun i hi _ _ => ?_
    have hno : ¬ (regBase (hexRegLc k) ≤ 160 + i / 8 ∧ 160 + i / 8 < regBase (hexRegLc k) + 4) := by
      have hlc : regBase (hexRegLc k) ≤ 140 := by
        rcases hk with rfl | rfl <;> decide
      omega
    exact congrArg (fun b : BitVec 8 => b.getLsbD (i % 8)) (if_neg hno)
  · rw [backState, State.get_setReg_temp, State.get_setTemp_same _ _ _ _ (by decide), hsa]

theorem iterates_iff {k : Nat} (hk : k = 0 ∨ k = 1) (h : ((loopTemps s).lc k).toNat < 2 ^ 31) :
    iterates s k = decide (1 < (loopTemps s).lc k) := by
  have hlc : (s.get 4 (.hex (hexRegLc k))).setWidth (8 * 4) = (loopTemps s).lc k := by
    rcases hk with rfl | rfl <;> rfl
  have hone : (1 : BitVec 32).toNat = 1 := rfl
  rw [iterates, toSigned, hlc, BitVec.toInt_eq_toNat_of_lt (by omega)]
  refine decide_eq_decide.2 ?_
  rw [BitVec.lt_def, hone]
  omega

theorem run_iterate (n k : Nat) (s : PhysState) (rest : LiftBlock) :
    (Block.ifElse (iteratesExpr k) (backBlock n k) rest .nil).run bodySem s =
      if iterates s k then backState s n k else rest.run bodySem s := by
  rw [Block.run, test_iterates, run_back]
  rfl

theorem reached_iterate (n k : Nat) (s : PhysState) (rest : LiftBlock) :
    reachedBranch ((Block.ifElse (iteratesExpr k) (backBlock n k) rest .nil).log bodySem s) =
      (iterates s k || reachedBranch (rest.log bodySem s)) := by
  rw [Block.log, test_iterates]
  cases iterates s k with
  | true => rfl
  | false => simp [reachedBranch, Block.log]

theorem reached_countdown (rest : LiftBlock) (s : PhysState) :
    reachedBranch ((countdownBlock rest).log bodySem s) = reachedBranch (rest.log bodySem (countdownState s)) := by
  have hstate : (if bodySem.test lpcfgExpr s then countdownThen.run bodySem s else s) = countdownState s :=
    run_countdown s .nil
  have hthen : reachedBranch (countdownThen.log bodySem s) = false := by
    rw [countdownThen, Block.log]
    split <;> rfl
  rw [countdownBlock, Block.log, hstate]
  split
  · simp only [reachedBranch, List.any_cons, List.any_append] at hthen ⊢
    rw [hthen]
    rfl
  · rfl

/-- What the body of an end of a loop leaves, where `r` are the registers and the loop that goes on. -/
structure EndsWith (r : LoopRegs × Option Nat) (n : Nat) (s u : PhysState) : Prop where
  regs : loopTemps u = r.1
  usr : usrRest u = usrRest s
  dest : ∀ k, r.2 = some k → u.get 4 (.temp (200 + n)) = s.get 4 (.hex (hexRegSa k))

section EndsWith

variable {t : PhysState} {r : LoopRegs} (hregs : loopTemps t = r) (husr : usrRest t = usrRest s)

include hregs husr

theorem EndsWith.over (n : Nat) : EndsWith (r, none) n s t := ⟨hregs, husr, nofun⟩

theorem EndsWith.back {k : Nat} (hk : k = 0 ∨ k = 1) (hsa : t.get 4 (.hex (hexRegSa k)) = s.get 4 (.hex (hexRegSa k)))
    (n : Nat) : EndsWith (r.iterate k, some k) n s (backState t n k) := by
  obtain ⟨h1, h2, h3⟩ := backState_spec hk t n
  refine ⟨by rw [h1, hregs], h2.trans husr, fun j hj => ?_⟩
  obtain rfl := Option.some.inj hj
  exact h3.trans hsa

end EndsWith

namespace EndKind

/-- Counts below 2^31, and a byte that is the field. -/
structure Small (e : EndKind) (s : PhysState) : Prop where
  count : ∀ k, e.ends k = true → ((loopTemps s).lc k).toNat < 2 ^ 31
  lpcfg : e.ends 0 = true → s.get 1 (.hex hexRegUsrLpcfg) < 4

/-- **What is emitted does what the reference does**, from a small state. -/
theorem run_block {e : EndKind} {s : PhysState} (h : e.Small s) (n : Nat) :
    EndsWith (e.reference (loopTemps s)) n s ((e.block n).run bodySem s) ∧
      reachedBranch ((e.block n).log bodySem s) = (e.reference (loopTemps s)).2.isSome := by
  cases e with
  | endloop1 =>
    have hiter := iterates_iff (.inr rfl) (h.count 1 rfl)
    have hrun : (endloop1.block n).run bodySem s = if iterates s 1 then backState s n 1 else s :=
      run_iterate n 1 s .nil
    have hreached : reachedBranch ((endloop1.block n).log bodySem s) = (iterates s 1 || false) :=
      reached_iterate n 1 s .nil
    rw [hrun, hreached, hiter, reference]
    by_cases hc : 1 < (loopTemps s).lc1
    · have hd : decide (1 < (loopTemps s).lc 1) = true := decide_eq_true hc
      rw [hd, if_pos rfl, if_pos hc]
      exact ⟨.back rfl rfl (.inr rfl) rfl n, rfl⟩
    · have hd : decide (1 < (loopTemps s).lc 1) = false := decide_eq_false hc
      rw [hd, if_neg Bool.false_ne_true, if_neg hc]
      exact ⟨.over rfl rfl n, rfl⟩
  | endloop0 =>
    obtain ⟨hregs, husr, hsa⟩ := countdownState_spec (h.lpcfg rfl)
    have hlc : (loopTemps (countdownState s)).lc 0 = (loopTemps s).countdown.lc0 := by
      rw [hregs]
      rfl
    have hiter := iterates_iff (.inl rfl) (s := countdownState s) (by
      rw [hlc, LoopRegs.countdown_lc0]
      exact h.count 0 rfl)
    have hrun : (endloop0.block n).run bodySem s =
        if iterates (countdownState s) 0 then backState (countdownState s) n 0 else countdownState s :=
      (run_countdown s _).trans (run_iterate n 0 (countdownState s) .nil)
    have hreached : reachedBranch ((endloop0.block n).log bodySem s) = (iterates (countdownState s) 0 || false) :=
      (reached_countdown _ s).trans (reached_iterate n 0 (countdownState s) .nil)
    rw [hrun, hreached, hiter, reference, hlc]
    by_cases hc : 1 < (loopTemps s).countdown.lc0
    · rw [decide_eq_true hc, if_pos rfl, if_pos hc]
      exact ⟨.back hregs husr (.inl rfl) (hsa 0) n, rfl⟩
    · rw [decide_eq_false hc, if_neg Bool.false_ne_true, if_neg hc]
      exact ⟨.over hregs husr n, rfl⟩
  | endloop01 =>
    obtain ⟨hregs, husr, hsa⟩ := countdownState_spec (h.lpcfg rfl)
    have hlc0 : (loopTemps (countdownState s)).lc 0 = (loopTemps s).countdown.lc0 := by
      rw [hregs]
      rfl
    have hlc1 : (loopTemps (countdownState s)).lc 1 = (loopTemps s).countdown.lc1 := by
      rw [hregs]
      rfl
    have hiter0 := iterates_iff (.inl rfl) (s := countdownState s) (by
      rw [hlc0, LoopRegs.countdown_lc0]
      exact h.count 0 rfl)
    have hiter1 := iterates_iff (.inr rfl) (s := countdownState s) (by
      rw [hlc1, LoopRegs.countdown_lc1]
      exact h.count 1 rfl)
    have hrun : (endloop01.block n).run bodySem s =
        if iterates (countdownState s) 0 then backState (countdownState s) n 0
        else if iterates (countdownState s) 1 then backState (countdownState s) n 1 else countdownState s :=
      (run_countdown s _).trans ((run_iterate n 0 (countdownState s) _).trans
        (congrArg _ (run_iterate n 1 (countdownState s) .nil)))
    have hreached : reachedBranch ((endloop01.block n).log bodySem s) =
        (iterates (countdownState s) 0 || (iterates (countdownState s) 1 || false)) :=
      (reached_countdown _ s).trans ((reached_iterate n 0 (countdownState s) _).trans
        (congrArg _ (reached_iterate n 1 (countdownState s) .nil)))
    rw [hrun, hreached, hiter0, hiter1, reference, hlc0, hlc1]
    by_cases hc0 : 1 < (loopTemps s).countdown.lc0
    · rw [decide_eq_true hc0, if_pos rfl, if_pos hc0]
      exact ⟨.back hregs husr (.inl rfl) (hsa 0) n, rfl⟩
    · rw [decide_eq_false hc0, if_neg Bool.false_ne_true, if_neg hc0]
      by_cases hc1 : 1 < (loopTemps s).countdown.lc1
      · rw [decide_eq_true hc1, if_pos rfl, if_pos hc1]
        exact ⟨.back hregs husr (.inr rfl) (hsa 1) n, rfl⟩
      · rw [decide_eq_false hc1, if_neg Bool.false_ne_true, if_neg hc1]
        exact ⟨.over hregs husr n, rfl⟩

end EndKind
end Reference
end Hex
