import Mathlib.Data.BitVec
/-!
# Bytes — words of up to eight bytes, little endian

A value is a 64-bit word; an access of `s` bytes takes its low `s` bytes (`norm`).  `join` reads a word out of a row of
bytes and `byte` takes it apart again.
-/
namespace Bytes

/-- The low `s` bytes of a word. -/
def norm (s : Nat) (v : BitVec 64) : BitVec 64 := (v.setWidth (8 * s)).setWidth 64

def byte (v : BitVec 64) (i : Nat) : BitVec 8 := (v >>> (8 * i)).setWidth 8

/-- The word whose bytes are `f 0`, …, `f (s - 1)`. -/
def join (f : Nat → BitVec 8) : Nat → BitVec 64
  | 0 => 0
  | s + 1 => join f s ||| ((f s).setWidth 64 <<< (8 * s))

theorem getLsbD_norm (s : Nat) (v : BitVec 64) (i : Nat) :
    (norm s v).getLsbD i = (decide (i < 8 * s) && v.getLsbD i) := by
  simp only [norm, BitVec.getLsbD_setWidth]
  by_cases h : i < 64
  · simp [h]
  · simp [h, BitVec.getLsbD_of_ge v i (by omega)]

theorem getLsbD_byte (v : BitVec 64) (i j : Nat) :
    (byte v i).getLsbD j = (decide (j < 8) && v.getLsbD (8 * i + j)) := by
  simp only [byte, BitVec.getLsbD_setWidth, BitVec.getLsbD_ushiftRight]

theorem getLsbD_join (f : Nat → BitVec 8) : ∀ (s i : Nat), s ≤ 8 →
    (join f s).getLsbD i = (decide (i < 8 * s) && (f (i / 8)).getLsbD (i % 8))
  | 0, i, _ => by simp [join]
  | s + 1, i, h => by
    rw [join, BitVec.getLsbD_or, getLsbD_join f s i (by omega), BitVec.getLsbD_shiftLeft, BitVec.getLsbD_setWidth]
    by_cases h1 : i < 8 * s
    · have h2 : i < 8 * (s + 1) := by omega
      simp [h1, h2]
    · by_cases h2 : i < 8 * (s + 1)
      · have hd : i / 8 = s := by omega
        have hm : i - 8 * s = i % 8 := by omega
        have h3 : i < 64 := by omega
        have h4 : i % 8 < 64 := by omega
        simp [h1, h2, hd, hm, h3, h4]
      · have h5 : 8 ≤ i - 8 * s := by omega
        simp [h1, h2, BitVec.getLsbD_of_ge (f s) _ h5]

theorem join_congr {f g : Nat → BitVec 8} : ∀ {s : Nat}, (∀ i < s, f i = g i) → join f s = join g s
  | 0, _ => rfl
  | s + 1, h => by rw [join, join, join_congr fun i hi => h i (Nat.lt_succ_of_lt hi), h s (Nat.lt_succ_self s)]

@[simp] theorem join_byte (v : BitVec 64) {s : Nat} (h : s ≤ 8) : join (byte v) s = norm s v := by
  refine BitVec.eq_of_getLsbD_eq fun i _ => ?_
  rw [getLsbD_join _ _ _ h, getLsbD_norm, getLsbD_byte]
  have : 8 * (i / 8) + i % 8 = i := by omega
  have h8 : i % 8 < 8 := by omega
  simp [this, h8]

@[simp] theorem byte_join (f : Nat → BitVec 8) {s i : Nat} (hi : i < s) (h : s ≤ 8) : byte (join f s) i = f i := by
  refine BitVec.eq_of_getLsbD_eq fun j hj => ?_
  rw [getLsbD_byte, getLsbD_join _ _ _ h]
  have h1 : 8 * i + j < 8 * s := by omega
  have h2 : (8 * i + j) / 8 = i := by omega
  have h3 : (8 * i + j) % 8 = j := by omega
  simp [h1, h2, h3, hj]

@[simp] theorem norm_norm (s : Nat) (v : BitVec 64) : norm s (norm s v) = norm s v := by
  refine BitVec.eq_of_getLsbD_eq fun i _ => ?_
  simp only [getLsbD_norm, ← Bool.and_assoc, Bool.and_self]

@[simp] theorem norm_eight (v : BitVec 64) : norm 8 v = v := by simp [norm]

@[simp] theorem norm_zero (s : Nat) : norm s 0#64 = 0#64 := by simp [norm]

@[simp] theorem norm_join (f : Nat → BitVec 8) {s : Nat} (h : s ≤ 8) : norm s (join f s) = join f s := by
  refine BitVec.eq_of_getLsbD_eq fun i _ => ?_
  rw [getLsbD_norm, getLsbD_join _ _ _ h, ← Bool.and_assoc, Bool.and_self]

theorem join_split (f : Nat → BitVec 8) : (join (fun i => f (4 + i)) 4 <<< 32) ||| join f 4 = join f 8 := by
  refine BitVec.eq_of_getLsbD_eq fun i hi => ?_
  rw [BitVec.getLsbD_or, BitVec.getLsbD_shiftLeft, getLsbD_join _ _ _ (by decide), getLsbD_join _ _ _ (by decide),
    getLsbD_join _ _ _ (by decide)]
  by_cases h : i < 32
  · have h1 : i < 8 * 8 := by omega
    simp [h, h1]
  · have h1 : i < 8 * 8 := by omega
    have h2 : i - 32 < 8 * 4 := by omega
    have h3 : 4 + (i - 32) / 8 = i / 8 := by omega
    have h4 : (i - 32) % 8 = i % 8 := by omega
    simp [h, h1, h2, h3, h4]

theorem byte_ushiftRight (v : BitVec 64) (k i : Nat) : byte (v >>> (8 * k)) i = byte v (k + i) := by
  rw [byte, byte, ← BitVec.shiftRight_add, Nat.mul_add]

end Bytes
