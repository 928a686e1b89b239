import BinjaHexagon.Opcodes
/-!
# LoopRegs — the hardware loops as the reference behaviour has them

Counts without a sign, a countdown of two bits, and an end of the loop that goes back while the count is above one.
This says what the `endloop` instructions mean; what is emitted for them is compared with it.
-/
namespace Hex

structure LoopRegs where
  lc0 : BitVec 32
  lc1 : BitVec 32
  lpcfg : BitVec 2
  p3 : BitVec 8
  deriving Repr, DecidableEq

namespace LoopRegs

variable (r : LoopRegs)

def lc (k : Nat) : BitVec 32 := if k = 0 then r.lc0 else r.lc1

/-- `if (LPCFG) { if (LPCFG == 1) P3 = 0xff; LPCFG = LPCFG - 1; }` -/
def countdown : LoopRegs :=
  if r.lpcfg = 0 then r else { r with lpcfg := r.lpcfg - 1, p3 := if r.lpcfg = 1 then 0xff else r.p3 }

/-- `LCk = LCk - 1` -/
def iterate (k : Nat) : LoopRegs := if k = 0 then { r with lc0 := r.lc0 - 1 } else { r with lc1 := r.lc1 - 1 }

end LoopRegs

inductive EndKind where
  | endloop0 | endloop1 | endloop01
  deriving Repr, DecidableEq

namespace EndKind

def opcode : EndKind → Opcode
  | endloop0 => Opcodes.j2Endloop0
  | endloop1 => Opcodes.j2Endloop1
  | endloop01 => Opcodes.j2Endloop01

/-- It is an end of loop `k`. -/
def ends : EndKind → Nat → Bool
  | endloop0, k => k == 0
  | endloop1, k => k == 1
  | endloop01, k => k == 0 || k == 1

/-- The registers after the instruction, and the loop whose start it goes back to. -/
def reference : EndKind → LoopRegs → LoopRegs × Option Nat
  | endloop0, r => if 1 < r.countdown.lc0 then (r.countdown.iterate 0, some 0) else (r.countdown, none)
  | endloop1, r => if 1 < r.lc1 then (r.iterate 1, some 1) else (r, none)
  | endloop01, r =>
    if 1 < r.countdown.lc0 then (r.countdown.iterate 0, some 0)
    else if 1 < r.countdown.lc1 then (r.countdown.iterate 1, some 1) else (r.countdown, none)

/-- The instruction decides on loop `k`: an `endloop01` decides on loop 1 only when loop 0 is over. -/
def Decides (e : EndKind) (k : Nat) (r : LoopRegs) : Prop := e.ends k = true ∧ (k = 1 → e = endloop01 → ¬ 1 < r.lc0)

end EndKind

namespace LoopRegs

variable {r : LoopRegs}

@[simp] theorem countdown_lc0 : r.countdown.lc0 = r.lc0 := by
  unfold countdown
  split <;> rfl

@[simp] theorem countdown_lc1 : r.countdown.lc1 = r.lc1 := by
  unfold countdown
  split <;> rfl

@[simp] theorem iterate_lpcfg (k : Nat) : (r.iterate k).lpcfg = r.lpcfg := by
  unfold iterate
  split <;> rfl

@[simp] theorem iterate_p3 (k : Nat) : (r.iterate k).p3 = r.p3 := by
  unfold iterate
  split <;> rfl

end LoopRegs

namespace EndKind

open LoopRegs

variable {e : EndKind} {k : Nat} {r : LoopRegs}

theorem ends_cases (h : e.ends k = true) : k = 0 ∧ e ≠ endloop1 ∨ k = 1 ∧ e ≠ endloop0 := by
  cases e with
  | endloop0 => exact .inl ⟨by simpa [ends] using h, nofun⟩
  | endloop1 => exact .inr ⟨by simpa [ends] using h, nofun⟩
  | endloop01 =>
    have h01 : k = 0 ∨ k = 1 := by simpa [ends] using h
    rcases h01 with hk | hk
    · exact .inl ⟨hk, nofun⟩
    · exact .inr ⟨hk, nofun⟩

theorem reference_loop0 (he : e ≠ endloop1) (hc : 1 < r.lc0) : e.reference r = (r.countdown.iterate 0, some 0) := by
  have hc' : 1 < r.countdown.lc0 := by rwa [countdown_lc0]
  cases e with
  | endloop1 => exact absurd rfl he
  | endloop0 | endloop01 => exact if_pos hc'

theorem reference_loop1 (he : e ≠ endloop0) (hc0 : e = endloop01 → ¬ 1 < r.lc0) (hc1 : 1 < r.lc1) :
    (e.reference r).2 = some 1 ∧ (e.reference r).1.lc1 = r.lc1 - 1 := by
  cases e with
  | endloop0 => exact absurd rfl he
  | endloop1 =>
    rw [reference, if_pos hc1]
    exact ⟨rfl, rfl⟩
  | endloop01 =>
    have hc0' : ¬ 1 < r.countdown.lc0 := by rw [countdown_lc0]; exact hc0 rfl
    have hc1' : 1 < r.countdown.lc1 := by rwa [countdown_lc1]
    rw [reference, if_neg hc0', if_pos hc1']
    exact ⟨rfl, congrArg (· - 1) countdown_lc1⟩

theorem reference_over0 (he : e ≠ endloop1) (hc : ¬ 1 < r.lc0) :
    (e.reference r).2 ≠ some 0 ∧ (e.reference r).1.lc0 = r.lc0 := by
  have hc' : ¬ 1 < r.countdown.lc0 := by rwa [countdown_lc0]
  cases e with
  | endloop1 => exact absurd rfl he
  | endloop0 =>
    rw [reference, if_neg hc']
    exact ⟨nofun, countdown_lc0⟩
  | endloop01 =>
    rw [reference, if_neg hc']
    by_cases hc1 : 1 < r.countdown.lc1
    · rw [if_pos hc1]
      exact ⟨nofun, countdown_lc0⟩
    · rw [if_neg hc1]
      exact ⟨nofun, countdown_lc0⟩

theorem reference_over1 (he : e ≠ endloop0) (hc0 : e = endloop01 → ¬ 1 < r.lc0) (hc1 : ¬ 1 < r.lc1) :
    (e.reference r).2 = none ∧ (e.reference r).1.lc1 = r.lc1 := by
  cases e with
  | endloop0 => exact absurd rfl he
  | endloop1 =>
    rw [reference, if_neg hc1]
    exact ⟨rfl, rfl⟩
  | endloop01 =>
    have hc0' : ¬ 1 < r.countdown.lc0 := by rw [countdown_lc0]; exact hc0 rfl
    have hc1' : ¬ 1 < r.countdown.lc1 := by rwa [countdown_lc1]
    rw [reference, if_neg hc0', if_neg hc1']
    exact ⟨rfl, countdown_lc1⟩

/-- **The loop that is decided on goes back exactly while its count is above one**, and is counted down then. -/
theorem reference_decides (h : e.Decides k r) : ((e.reference r).2 = some k ↔ 1 < r.lc k) ∧
    (e.reference r).1.lc k = if 1 < r.lc k then r.lc k - 1 else r.lc k := by
  obtain ⟨hends, hlast⟩ := h
  rcases ends_cases hends with ⟨rfl, he⟩ | ⟨rfl, he⟩
  · change (_ ↔ 1 < r.lc0) ∧ (e.reference r).1.lc0 = if 1 < r.lc0 then r.lc0 - 1 else r.lc0
    by_cases hc : 1 < r.lc0
    · rw [reference_loop0 he hc, if_pos hc]
      exact ⟨⟨fun _ => hc, fun _ => rfl⟩, congrArg (· - 1) countdown_lc0⟩
    · obtain ⟨hback, hlc⟩ := reference_over0 he hc
      rw [if_neg hc]
      exact ⟨⟨fun h => absurd h hback, fun h => absurd h hc⟩, hlc⟩
  · change (_ ↔ 1 < r.lc1) ∧ (e.reference r).1.lc1 = if 1 < r.lc1 then r.lc1 - 1 else r.lc1
    by_cases hc : 1 < r.lc1
    · obtain ⟨hback, hlc⟩ := reference_loop1 he (hlast rfl) hc
      rw [if_pos hc]
      exact ⟨⟨fun _ => hc, fun _ => hback⟩, hlc⟩
    · obtain ⟨hback, hlc⟩ := reference_over1 he (hlast rfl) hc
      rw [if_neg hc]
      exact ⟨⟨fun h => absurd (hback.symm.trans h) nofun, fun h => absurd h hc⟩, hlc⟩

theorem reference_target (h : e.Decides k r) : (e.reference r).2 =
    if 1 < r.lc k then some k else if k = 0 ∧ e = endloop01 ∧ 1 < r.lc1 then some 1 else none := by
  by_cases hc : 1 < r.lc k
  · rw [if_pos hc]
    exact (reference_decides h).1.2 hc
  · rw [if_neg hc]
    obtain ⟨hends, hlast⟩ := h
    rcases ends_cases hends with ⟨rfl, he⟩ | ⟨rfl, he⟩
    · have hc' : ¬ 1 < r.countdown.lc0 := by rwa [countdown_lc0]
      cases e with
      | endloop1 => exact absurd rfl he
      | endloop0 =>
        rw [reference, if_neg hc', if_neg fun h => nomatch h.2.1]
      | endloop01 =>
        rw [reference, if_neg hc', countdown_lc1]
        by_cases hc1 : 1 < r.lc1
        · rw [if_pos hc1, if_pos ⟨rfl, rfl, hc1⟩]
        · rw [if_neg hc1, if_neg fun h => hc1 h.2.2]
    · rw [if_neg fun h => nomatch h.1]
      exact (reference_over1 he (hlast rfl) hc).1

/-- An end of loop 0 counts `LPCFG` down, whatever it decides. -/
theorem reference_countdown (h : e.ends 0 = true) :
    (e.reference r).1.lpcfg = r.countdown.lpcfg ∧ (e.reference r).1.p3 = r.countdown.p3 := by
  cases e with
  | endloop1 => cases h
  | endloop0 =>
    simp only [reference]
    split <;> simp
  | endloop01 =>
    simp only [reference]
    split
    · simp
    · split <;> simp

end EndKind

namespace LoopRegs

/-- The count after `m` passes that went back, of a loop set up with `n`. -/
def Counted (n : BitVec 32) (m : Nat) (c : BitVec 32) : Prop := m < max 1 n.toNat ∧ c.toNat = n.toNat - m

theorem counted_zero (n : BitVec 32) : Counted n 0 n := ⟨by omega, rfl⟩

/-- **A pass more**: it goes back unless it is the last of the `max 1 n`. -/
theorem Counted.back_iff {n c : BitVec 32} {m : Nat} (h : Counted n m c) : 1 < c ↔ m + 1 < max 1 n.toNat := by
  obtain ⟨hm, hc⟩ := h
  rw [BitVec.lt_def, hc]
  have h1 : (1 : BitVec 32).toNat = 1 := rfl
  omega

theorem Counted.succ {n c : BitVec 32} {m : Nat} (h : Counted n m c) (hback : 1 < c) : Counted n (m + 1) (c - 1) := by
  refine ⟨h.back_iff.1 hback, ?_⟩
  obtain ⟨hm, hc⟩ := h
  have h1 : (1 : BitVec 32).toNat = 1 := rfl
  rw [BitVec.lt_def, h1] at hback
  have hlt := c.isLt
  rw [BitVec.toNat_sub, h1]
  omega

/-- The countdown after `m` passes, of a loop set up with `LPCFG = g` and `P3 = p`. -/
def CountedDown (g : Nat) (p : BitVec 8) (m : Nat) (r : LoopRegs) : Prop :=
  r.lpcfg.toNat = g - m ∧ r.p3 = if 0 < g ∧ g ≤ m then 0xff else p

/-- **`P3` is set on the pass whose number is the configuration**, and on no other. -/
theorem CountedDown.succ {g : Nat} {p : BitVec 8} {m : Nat} {r : LoopRegs} (h : CountedDown g p m r) :
    CountedDown g p (m + 1) r.countdown ∧ r.countdown.p3 = if m + 1 = g then 0xff else r.p3 := by
  obtain ⟨hcfg, hp⟩ := h
  have hone : (1 : BitVec 2).toNat = 1 := rfl
  have hlt := r.lpcfg.isLt
  have hpass : r.countdown.p3 = if m + 1 = g then 0xff else r.p3 := by
    unfold countdown
    by_cases hz : r.lpcfg = 0
    · have : r.lpcfg.toNat = 0 := by rw [hz]; rfl
      rw [if_pos hz, if_neg (by omega)]
    · by_cases h1 : r.lpcfg = 1
      · have : r.lpcfg.toNat = 1 := by rw [h1]; rfl
        rw [if_neg hz]
        simp only [h1, if_true]
        rw [if_pos (by omega)]
      · have : r.lpcfg.toNat ≠ 1 := fun h => h1 (BitVec.eq_of_toNat_eq h)
        rw [if_neg hz]
        simp only [h1, if_false]
        rw [if_neg (by omega)]
  refine ⟨⟨?_, ?_⟩, hpass⟩
  · unfold countdown
    by_cases hz : r.lpcfg = 0
    · have : r.lpcfg.toNat = 0 := by rw [hz]; rfl
      rw [if_pos hz]
      omega
    · have : r.lpcfg.toNat ≠ 0 := fun h => hz (BitVec.eq_of_toNat_eq h)
      rw [if_neg hz]
      simp only [BitVec.toNat_sub, hone]
      omega
  · rw [hpass, hp]
    by_cases hg : m + 1 = g
    · rw [if_pos hg, if_pos (by omega)]
    · rw [if_neg hg]
      by_cases hgm : 0 < g ∧ g ≤ m
      · rw [if_pos hgm, if_pos (by omega)]
      · rw [if_neg hgm, if_neg (by omega)]

end LoopRegs
end Hex
