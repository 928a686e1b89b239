import BinjaHexagon.Bytes
/-!
# Machine — the registers, temporaries and memory that LLIL reads and writes

Registers are rows of bytes, so that a sub register (`P1` inside `P3:0`, `LPCFG` inside `USR`) shares its bytes with the
register it is part of.  A temporary is a row of eight bytes; what names one is a parameter.
-/
namespace Hex

open Bytes (byte join norm)

-- The register numbers of `hex_regs.h`.
def hexRegR00 : Nat := 0
def hexRegSp : Nat := 29
def hexRegFp : Nat := 30
def hexRegLr : Nat := 31
def hexRegC00 : Nat := 32
def hexRegSa0 : Nat := 32
def hexRegLc0 : Nat := 33
def hexRegSa1 : Nat := 34
def hexRegLc1 : Nat := 35
def hexRegP30 : Nat := 36
def hexRegUsr : Nat := 40
def hexRegGp : Nat := 43
def hexRegP0 : Nat := 90
def hexRegP3 : Nat := 93
def hexRegUsrLpcfg : Nat := 94
def numHexRegs : Nat := 100

/-- The register's first byte: `GetRegisterInfo` makes `P0`..`P3` bytes 0..3 of `P3:0` and `LPCFG` byte 1 of `USR`. -/
def regBase (r : Nat) : Nat :=
  if hexRegP0 ≤ r ∧ r ≤ hexRegP3 then 4 * hexRegP30 + (r - hexRegP0)
  else if r = hexRegUsrLpcfg then 4 * hexRegUsr + 1
  else 4 * r

/-- A register operand of LLIL: an architectural register, or a temporary. -/
inductive LReg (τ : Type) where
  | hex (r : Nat)
  | temp (t : τ)
  deriving Repr, DecidableEq

def LReg.map {τ τ' : Type} (f : τ → τ') : LReg τ → LReg τ'
  | .hex r => .hex r
  | .temp t => .temp (f t)

structure State (τ : Type) where
  reg : Nat → BitVec 8
  temp : τ → Nat → BitVec 8
  mem : BitVec 32 → BitVec 8

namespace State

variable {τ : Type}

/-- `il.Register(size, r)`. -/
def get (size : Nat) (s : State τ) : LReg τ → BitVec 64
  | .hex r => join (fun i => s.reg (regBase r + i)) size
  | .temp t => join (s.temp t) size

/-- `il.Load(size, addr)`. -/
def load (size : Nat) (s : State τ) (addr : BitVec 64) : BitVec 64 :=
  join (fun i => s.mem (addr.setWidth 32 + BitVec.ofNat 32 i)) size

def setReg (size : Nat) (r : Nat) (v : BitVec 64) (s : State τ) : State τ :=
  { s with reg := fun a => if regBase r ≤ a ∧ a < regBase r + size then byte v (a - regBase r) else s.reg a }

def setTemp [DecidableEq τ] (size : Nat) (t : τ) (v : BitVec 64) (s : State τ) : State τ :=
  { s with temp := fun u i => if u = t ∧ i < size then byte v i else s.temp u i }

/-- `il.SetRegister(size, r, v)`. -/
def set [DecidableEq τ] (size : Nat) (r : LReg τ) (v : BitVec 64) (s : State τ) : State τ :=
  match r with
  | .hex r => s.setReg size r v
  | .temp t => s.setTemp size t v

/-- `il.Store(size, addr, v)`. -/
def store (size : Nat) (addr v : BitVec 64) (s : State τ) : State τ :=
  { s with mem := fun a =>
      let i := (a - addr.setWidth 32).toNat
      if i < size then byte v i else s.mem a }

variable (s : State τ) (n : Nat) (v : BitVec 64)

@[simp] theorem setReg_temp (r : Nat) : (s.setReg n r v).temp = s.temp := rfl
@[simp] theorem setReg_mem (r : Nat) : (s.setReg n r v).mem = s.mem := rfl
@[simp] theorem store_reg (a : BitVec 64) : (s.store n a v).reg = s.reg := rfl
@[simp] theorem store_temp (a : BitVec 64) : (s.store n a v).temp = s.temp := rfl

@[simp] theorem get_setReg_temp (r : Nat) (m : Nat) (t : τ) :
    (s.setReg n r v).get m (.temp t) = s.get m (.temp t) := rfl

theorem get_setReg_same (r : Nat) (h : n ≤ 8) : (s.setReg n r v).get n (.hex r) = norm n v := by
  rw [get, ← Bytes.join_byte v h]
  exact Bytes.join_congr fun i hi => by simp [setReg, hi]

/-- Two accesses that share no byte. -/
def Apart (r : Nat) (n : Nat) (q : Nat) (m : Nat) : Prop := regBase r + n ≤ regBase q ∨ regBase q + m ≤ regBase r

instance (r : Nat) (n : Nat) (q : Nat) (m : Nat) : Decidable (Apart r n q m) :=
  inferInstanceAs (Decidable (_ ∨ _))

theorem get_setReg_apart {r q : Nat} {m : Nat} (h : Apart r n q m) :
    (s.setReg n r v).get m (.hex q) = s.get m (.hex q) := by
  refine Bytes.join_congr fun i hi => ?_
  have : ¬(regBase r ≤ regBase q + i ∧ regBase q + i < regBase r + n) := by rcases h with h | h <;> omega
  simp only [setReg, this, if_false]

variable [DecidableEq τ]

@[simp] theorem setTemp_reg (t : τ) : (s.setTemp n t v).reg = s.reg := rfl
@[simp] theorem setTemp_mem (t : τ) : (s.setTemp n t v).mem = s.mem := rfl

theorem setTemp_temp_ne {t u : τ} (h : u ≠ t) : (s.setTemp n t v).temp u = s.temp u := by
  funext i
  simp only [setTemp, h, false_and, if_false]

@[simp] theorem get_setTemp_same (t : τ) (h : n ≤ 8) : (s.setTemp n t v).get n (.temp t) = norm n v := by
  rw [get, ← Bytes.join_byte v h]
  exact Bytes.join_congr fun i hi => by simp [setTemp, hi]

theorem get_setTemp_ne {t u : τ} (h : u ≠ t) (m : Nat) : (s.setTemp n t v).get m (.temp u) = s.get m (.temp u) := by
  simp only [get, setTemp_temp_ne s n v h]

@[simp] theorem get_setTemp_hex (t : τ) (m : Nat) (r : Nat) :
    (s.setTemp n t v).get m (.hex r) = s.get m (.hex r) := rfl

end State
end Hex
