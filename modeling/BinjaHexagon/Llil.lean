import BinjaHexagon.Machine
/-!
# Llil — Binary Ninja's low level IL, as far as the lifter builds it

The expression and instruction classes of `gen_il_funcs.py` (`IlRegister`, `IlAdd`, `IlSetRegister`, …).  Registers and
constants are parameters: the generator names C++ variables (`RsV`, `riV`), the lifter puts registers and numbers in
their place.  Every operator of two operands has the size its Python class is given.
-/
namespace Hex

open Bytes (norm)

inductive IlUnop where
  | not | neg | lowPart | zeroExtend | signExtend | boolToInt
  deriving Repr, DecidableEq

inductive IlBinop where
  | add | sub | mult | or | and | xor
  | shiftLeft | logicalShiftRight | arithShiftRight | rotateLeft
  deriving Repr, DecidableEq

inductive IlCompare where
  | equal | notEqual
  | signedGreaterThan | unsignedGreaterThan | signedGreaterEqual | unsignedGreaterEqual
  | signedLessThan | unsignedLessThan | signedLessEqual | unsignedLessEqual
  deriving Repr, DecidableEq

inductive IlExpr (ρ κ : Type) where
  | register (size : Nat) (r : ρ)
  | registerSplit (size : Nat) (hi lo : ρ)
  | const (size : Nat) (v : κ)
  | constPointer (size : Nat) (v : κ)
  | readGp (size : Nat)
  | unop (o : IlUnop) (size : Nat) (a : IlExpr ρ κ)
  | binop (o : IlBinop) (size : Nat) (a b : IlExpr ρ κ)
  | compare (o : IlCompare) (size : Nat) (a b : IlExpr ρ κ)
  | load (size : Nat) (addr : IlExpr ρ κ)
  deriving Repr, DecidableEq

/-- The `size` attribute. -/
def IlExpr.size {ρ κ : Type} : IlExpr ρ κ → Nat
  | register s _ | registerSplit s _ _ | const s _ | constPointer s _ | readGp s
  | unop _ s _ | binop _ s _ _ | compare _ s _ _ | load s _ => s

/-- The instructions the generated code adds with `il.AddInstruction`. -/
inductive IlInsn (ρ κ : Type) where
  | setRegister (size : Nat) (r : ρ) (v : IlExpr ρ κ)
  | setRegisterSplit (size : Nat) (hi lo : ρ) (v : IlExpr ρ κ)
  | store (size : Nat) (addr v : IlExpr ρ κ)
  | systemCall
  | breakpoint
  | undefined
  deriving Repr, DecidableEq

/-- The low `s` bytes as a number with sign. -/
def toSigned (s : Nat) (v : BitVec 64) : Int := (v.setWidth (8 * s)).toInt

/-- The low `s` bytes, the sign copied upwards. -/
def signExtendFrom (s : Nat) (v : BitVec 64) : BitVec 64 := (v.setWidth (8 * s)).signExtend 64

/-- `from` is the size of the operand. -/
def IlUnop.eval (o : IlUnop) (size from' : Nat) (a : BitVec 64) : BitVec 64 :=
  match o with
  | .not => norm size (~~~a)
  | .neg => norm size (-a)
  | .lowPart | .zeroExtend | .boolToInt => norm size a
  | .signExtend => norm size (signExtendFrom from' a)

def IlBinop.eval (o : IlBinop) (size : Nat) (a b : BitVec 64) : BitVec 64 :=
  match o with
  | .add => norm size (a + b)
  | .sub => norm size (a - b)
  | .mult => norm size (a * b)
  | .or => norm size (a ||| b)
  | .and => norm size (a &&& b)
  | .xor => norm size (a ^^^ b)
  | .shiftLeft => norm size (a <<< b.toNat)
  | .logicalShiftRight => norm size a >>> b.toNat
  | .arithShiftRight => norm size ((signExtendFrom size a).sshiftRight b.toNat)
  | .rotateLeft => ((a.setWidth (8 * size)).rotateLeft b.toNat).setWidth 64

def IlCompare.eval (o : IlCompare) (size : Nat) (a b : BitVec 64) : Bool :=
  match o with
  | .equal => norm size a == norm size b
  | .notEqual => norm size a != norm size b
  | .signedGreaterThan => decide (toSigned size b < toSigned size a)
  | .unsignedGreaterThan => decide (norm size b < norm size a)
  | .signedGreaterEqual => decide (toSigned size b ≤ toSigned size a)
  | .unsignedGreaterEqual => decide (norm size b ≤ norm size a)
  | .signedLessThan => decide (toSigned size a < toSigned size b)
  | .unsignedLessThan => decide (norm size a < norm size b)
  | .signedLessEqual => decide (toSigned size a ≤ toSigned size b)
  | .unsignedLessEqual => decide (norm size a ≤ norm size b)

namespace IlExpr

variable {ρ ρ' κ κ' : Type}

/-- Put registers for register names and numbers for constants; `gp` stands where `IlReadGP` stood. -/
def subst (f : ρ → ρ') (g : κ → κ') (gp : Nat → IlExpr ρ' κ') : IlExpr ρ κ → IlExpr ρ' κ'
  | register s r => register s (f r)
  | registerSplit s hi lo => registerSplit s (f hi) (f lo)
  | const s v => const s (g v)
  | constPointer s v => constPointer s (g v)
  | readGp s => gp s
  | unop o s a => unop o s (a.subst f g gp)
  | binop o s a b => binop o s (a.subst f g gp) (b.subst f g gp)
  | compare o s a b => compare o s (a.subst f g gp) (b.subst f g gp)
  | load s a => load s (a.subst f g gp)

/-- The same expression over other registers. -/
def map (f : ρ → ρ') : IlExpr ρ κ → IlExpr ρ' κ := subst f id readGp

/-- The registers an expression reads, with the size it reads them at. -/
def reads : IlExpr ρ κ → List (Nat × ρ)
  | register s r => [(s, r)]
  | registerSplit s hi lo => [(s, hi), (s, lo)]
  | const _ _ | constPointer _ _ | readGp _ => []
  | unop _ _ a => a.reads
  | binop _ _ a b | compare _ _ a b => a.reads ++ b.reads
  | load _ a => a.reads

end IlExpr

namespace IlInsn

variable {ρ ρ' κ κ' : Type}

def subst (f : ρ → ρ') (g : κ → κ') (gp : Nat → IlExpr ρ' κ') : IlInsn ρ κ → IlInsn ρ' κ'
  | setRegister s r v => setRegister s (f r) (v.subst f g gp)
  | setRegisterSplit s hi lo v => setRegisterSplit s (f hi) (f lo) (v.subst f g gp)
  | store s a v => store s (a.subst f g gp) (v.subst f g gp)
  | systemCall => systemCall
  | breakpoint => breakpoint
  | undefined => undefined

def map (f : ρ → ρ') : IlInsn ρ κ → IlInsn ρ' κ := subst f id .readGp

/-- The registers an instruction writes, with the size it writes them at. -/
def dests : IlInsn ρ κ → List (Nat × ρ)
  | setRegister s r _ => [(s, r)]
  | setRegisterSplit s hi lo _ => [(s, hi), (s, lo)]
  | store _ _ _ | systemCall | breakpoint | undefined => []

/-- The expressions an instruction evaluates. -/
def exprs : IlInsn ρ κ → List (IlExpr ρ κ)
  | setRegister _ _ v | setRegisterSplit _ _ _ v => [v]
  | store _ a v => [a, v]
  | systemCall | breakpoint | undefined => []

theorem dests_subst (f : ρ → ρ') (g : κ → κ') (gp : Nat → IlExpr ρ' κ') (i : IlInsn ρ κ) :
    (i.subst f g gp).dests = i.dests.map fun d => (d.1, f d.2) := by
  cases i <;> rfl

end IlInsn

/-- The registers a step reads and those it writes. -/
structure Access (ρ : Type) where
  uses : List ρ
  sets : List ρ
  deriving Repr, DecidableEq

namespace Access

variable {ρ κ α : Type}

def ofExpr (e : IlExpr ρ κ) : Access ρ := ⟨e.reads.map Prod.snd, []⟩

def ofInsn (i : IlInsn ρ κ) : Access ρ := ⟨(i.exprs.flatMap IlExpr.reads).map Prod.snd, i.dests.map Prod.snd⟩

def filterMap (f : ρ → Option α) (a : Access ρ) : Access α := ⟨a.uses.filterMap f, a.sets.filterMap f⟩

end Access

section Eval

variable {τ : Type}

/-- An expression with its registers and numbers put in. -/
abbrev LExpr (τ : Type) := IlExpr (LReg τ) (BitVec 64)

/-- An instruction with its registers and numbers put in. -/
abbrev LInsn (τ : Type) := IlInsn (LReg τ) (BitVec 64)

def IlExpr.eval : LExpr τ → State τ → BitVec 64
  | register s r, st => st.get s r
  | registerSplit s hi lo, st => (st.get s hi <<< (8 * s)) ||| st.get s lo
  | const s v, _ | constPointer s v, _ => norm s v
  | readGp s, st => st.get s (.hex hexRegGp)
  | unop o s a, st => o.eval s a.size (a.eval st)
  | binop o s a b, st => o.eval s (a.eval st) (b.eval st)
  | compare o s a b, st => if o.eval s (a.eval st) (b.eval st) then 1 else 0
  | load s a, st => st.load s (a.eval st)

/-- What `il.If` tests. -/
def IlExpr.test (c : LExpr τ) (s : State τ) : Bool := c.eval s != 0

theorem IlExpr.test_compare (o : IlCompare) (n : Nat) (a b : LExpr τ) (s : State τ) :
    (IlExpr.compare o n a b).test s = o.eval n (a.eval s) (b.eval s) := by
  rw [test, eval]
  cases o.eval n (a.eval s) (b.eval s) <;> rfl

variable [DecidableEq τ]

def IlInsn.exec : LInsn τ → State τ → State τ
  | setRegister n r v, s => s.set n r (v.eval s)
  | setRegisterSplit n hi lo v, s => (s.set n lo (v.eval s)).set n hi (v.eval s >>> (8 * n))
  | store n a v, s => s.store n (a.eval s) (v.eval s)
  | systemCall, s | breakpoint, s | undefined, s => s

/-- **An instruction leaves alone every temporary it does not name.** -/
theorem IlInsn.exec_temp {i : LInsn τ} {t : τ} (h : ∀ d ∈ i.dests, d.2 ≠ .temp t) (s : State τ) :
    (i.exec s).temp t = s.temp t := by
  have hset : ∀ (n : Nat) (r : LReg τ) (v : BitVec 64) (s : State τ), r ≠ .temp t →
      (s.set n r v).temp t = s.temp t := by
    intro n r v s hr
    cases r with
    | hex r => rfl
    | temp u => exact State.setTemp_temp_ne s n v (fun hu => hr (by rw [hu]))
  cases i with
  | setRegister n r v => exact hset _ _ _ _ (h (n, r) (by simp [dests]))
  | setRegisterSplit n hi lo v =>
    rw [exec, hset _ _ _ _ (h (n, hi) (by simp [dests])), hset _ _ _ _ (h (n, lo) (by simp [dests]))]
  | store n a v => rfl
  | systemCall | breakpoint | undefined => rfl

/-- An instruction that names only temporaries leaves the architectural registers alone. -/
theorem IlInsn.exec_reg {i : LInsn τ} (h : ∀ d ∈ i.dests, ∀ r, d.2 ≠ .hex r) (s : State τ) :
    (i.exec s).reg = s.reg := by
  cases i with
  | setRegister n r v =>
    cases r with
    | hex r => exact absurd rfl (h (n, .hex r) (by simp [dests]) r)
    | temp t => rfl
  | setRegisterSplit n hi lo v =>
    cases hi with
    | hex r => exact absurd rfl (h (n, .hex r) (by simp [dests]) r)
    | temp t =>
      cases lo with
      | hex r => exact absurd rfl (h (n, .hex r) (by simp [dests]) r)
      | temp u => rfl
  | store n a v => rfl
  | systemCall | breakpoint | undefined => rfl

end Eval
end Hex
