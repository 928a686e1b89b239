import BinjaHexagon.BodyRun
import BinjaHexagon.PairWidth
import BinjaHexagon.ParallelReads
/-!
# PairRun — register pairs read, computed with and written back in full

What a lifted instruction does with its pairs, against the same behaviour run with a place for every variable: the two
agree for every instruction whose operands have one size each, whose operators keep eight bytes, and whose copies of
pairs are read before a scratch variable takes their index.
-/
namespace Hex

open Bytes (byte norm)
open Flow (Block Along)

/-- An expression and those in it. -/
def IlExpr.parts {ρ κ : Type} : IlExpr ρ κ → List (IlExpr ρ κ)
  | unop o n a => unop o n a :: a.parts
  | binop o n a b => binop o n a b :: (a.parts ++ b.parts)
  | compare o n a b => compare o n a b :: (a.parts ++ b.parts)
  | load n a => load n a :: a.parts
  | e => [e]

section Run

variable (pc : BitVec 64) (i : Insn) (s : PhysState)

end Run

section Places

variable {i : Insn} {x : RegName} {r n : Nat} {rw : Bool}

end Places

section Instruction

variable {pc : BitVec 64} {i : Insn} {s : PhysState} {r k : Nat} {rw : Bool}

end Instruction

end Hex
