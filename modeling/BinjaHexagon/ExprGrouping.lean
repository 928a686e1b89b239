import BinjaHexagon.Exec
import BinjaHexagon.SemanticsParser
/-!
# ExprGrouping — which expressions the parser groups as C does

The parser reads every text as `shift` does, at each level of brackets.  That is C's reading exactly when, at each
level, prefix operators stand before the last operand only and every operator binds tighter than the one before it.
-/
namespace Hex

open Grouping (Chain Tree)

theorem reduce_pres (t : Tree Unop InfixOp Expr) : ∀ (ps : List Unop) (st : List Frame),
    reduce (ps.foldl (fun st p => .pre p :: st) st) (exprSyntax.eval t) = reduce st (exprSyntax.eval (.pres ps t))
  | [], _ => rfl
  | p :: ps, st => reduce_pres t ps (.pre p :: st)

theorem parseFrom_pres (ts : List Token) : ∀ (ps : List Unop) (st : List Frame),
    parseFrom (.operand st) (ps.map .pre ++ ts) = parseFrom (.operand (ps.foldl (fun st p => .pre p :: st) st)) ts
  | [], _ => rfl
  | p :: ps, st => parseFrom_pres ts ps (.pre p :: st)

/-- Tokens that end an expression. -/
def Closes : List Token → Prop
  | [] | .rpar :: _ | .comma :: _ => True
  | _ => False

/-- Before a token that ends the expression only what the stack reduces to counts. -/
theorem parseFrom_close {ts : List Token} (h : Closes ts) {st st' : List Frame} {e e' : Expr}
    (hr : reduce st e = reduce st' e') : parseFrom (.operator st e) ts = parseFrom (.operator st' e') ts := by
  cases ts with
  | nil => rw [parseFrom, parseFrom, hr]
  | cons t ts =>
    cases t with
    | rpar => rw [parseFrom, parseFrom, hr]
    | comma => rw [parseFrom, parseFrom, hr]
    | _ => exact h.elim

mutual

theorem parseFrom_primary : ∀ (a : Primary) (st : List Frame) (ts : List Token),
    parseFrom (.operand st) (a.tokens ++ ts) = parseFrom (.operator st a.shifted) ts
  | .operand _, _, _ => rfl
  | .call0 _, _, _ => rfl
  | .paren t, st, ts => by
    rw [Primary.tokens, List.cons_append, parseFrom, List.append_assoc]
    exact parseFrom_text t (.paren :: st) (.rpar :: ts) trivial
  | .call1 m t, st, ts => by
    rw [Primary.tokens, List.cons_append, parseFrom, List.append_assoc]
    exact parseFrom_text t (.call1 m :: st) (.rpar :: ts) trivial
  | .call2 m t u, st, ts => by
    rw [Primary.tokens, List.cons_append, parseFrom, List.append_assoc, List.cons_append, List.append_assoc]
    refine (parseFrom_text t (.call2 m :: st) (.comma :: _) trivial).trans ?_
    exact parseFrom_text u (.call2Snd m (Text.shifted t) :: st) (.rpar :: ts) trivial

theorem parseFrom_text : ∀ (t : Text) (st : List Frame) (ts : List Token), Closes ts →
    parseFrom (.operand st) (Text.tokens t ++ ts) = parseFrom (.operator st (Text.shifted t)) ts
  | .last ps a, st, ts, h => by
    rw [Text.tokens, List.append_assoc, parseFrom_pres, parseFrom_primary]
    exact parseFrom_close h (reduce_pres (.atom a.shifted) ps st)
  | .link ps a o c, st, ts, h => by
    rw [Text.tokens, List.append_assoc, parseFrom_pres, List.append_assoc, parseFrom_primary, List.cons_append,
      parseFrom, parseFrom_text c _ _ h]
    refine parseFrom_close h ?_
    exact reduce_pres (.bin o (.atom a.shifted) (Text.shiftedChain c).shift) ps st
end

/-- **The parser's tree is the one where every conflict is settled as shift.** -/
theorem parseExpr_tokens (t : Text) : parseExpr (Text.tokens t) = some (Text.shifted t) := by
  have h := parseFrom_text t [] [] trivial
  rwa [List.append_nil] at h

/-- The weight of a chain is that of every tree read from it. -/
def chainWeight : Chain Unop InfixOp Expr → Nat
  | .last ps a => ps.length + a.weight
  | .link ps a _ c => ps.length + a.weight + 1 + chainWeight c

theorem chainWeight_append (o : InfixOp) (d : Chain Unop InfixOp Expr) : ∀ c : Chain Unop InfixOp Expr,
    chainWeight (c.append o d) = chainWeight c + 1 + chainWeight d
  | .last _ _ => rfl
  | .link ps a _ c => by rw [Chain.append, chainWeight, chainWeight_append o d c, chainWeight]; omega

theorem chainWeight_cons (p : Unop) : ∀ c : Chain Unop InfixOp Expr, chainWeight (c.cons p) = chainWeight c + 1
  | .last ps a => by rw [Chain.cons, chainWeight, chainWeight, List.length_cons]; omega
  | .link ps a o c => by rw [Chain.cons, chainWeight, chainWeight, List.length_cons]; omega

theorem weight_eval : ∀ t : Tree Unop InfixOp Expr, (exprSyntax.eval t).weight = chainWeight t.toChain
  | .atom _ => (Nat.zero_add _).symm
  | .pre p t => by
    rw [Tree.toChain, chainWeight_cons, ← weight_eval t]
    cases p <;> rfl
  | .bin o l r => by
    rw [Tree.toChain, chainWeight_append, ← weight_eval l, ← weight_eval r, Nat.add_right_comm]
    cases o <;> rfl

theorem weight_shift (c : Chain Unop InfixOp Expr) : (exprSyntax.eval c.shift).weight = chainWeight c := by
  rw [weight_eval, Chain.toChain_shift]

theorem weight_group (c : Chain Unop InfixOp Expr) :
    (exprSyntax.eval (c.group InfixOp.prec)).weight = chainWeight c := by
  rw [weight_eval, Chain.toChain_group]

mutual

/-- However a text is grouped, its tree has the same weight. -/
theorem Primary.weight_eq : ∀ a : Primary, a.shifted.weight = a.grouped.weight
  | .operand _ | .call0 _ => rfl
  | .paren t => by rw [Primary.shifted, Primary.grouped, weight_shift, weight_group, Text.weight_eq t]
  | .call1 m t => by
    rw [Primary.shifted, Primary.grouped, Expr.weight, Expr.weight, weight_shift, weight_group, Text.weight_eq t]
  | .call2 m t u => by
    rw [Primary.shifted, Primary.grouped, Expr.weight, Expr.weight, weight_shift, weight_group, weight_shift,
      weight_group, Text.weight_eq t, Text.weight_eq u]

theorem Text.weight_eq : ∀ t : Text, chainWeight (Text.shiftedChain t) = chainWeight (Text.groupedChain t)
  | .last ps a => by rw [Text.shiftedChain, Text.groupedChain, chainWeight, chainWeight, a.weight_eq]
  | .link ps a o c => by
    rw [Text.shiftedChain, Text.groupedChain, chainWeight, chainWeight, a.weight_eq, Text.weight_eq c]
end

mutual

/-- At every level of brackets prefix operators stand before the last operand only, and every operator binds tighter
than the one before it. -/
def Primary.Rising : Primary → Prop
  | .operand _ | .call0 _ => True
  | .paren t | .call1 _ t => Text.Rising t
  | .call2 _ t u => Text.Rising t ∧ Text.Rising u

def Text.Rising : Text → Prop
  | .last _ a => a.Rising
  | .link ps a o c => ps = [] ∧ (∀ o' ∈ c.ops.head?, o.prec < o'.prec) ∧ a.Rising ∧ Text.Rising c

end

theorem Text.rising_iff : ∀ t : Text, Text.Rising t ↔ Chain.Rising InfixOp.prec t ∧ ∀ a ∈ t.atoms, a.Rising
  | .last ps a => by simp [Text.Rising, Chain.Rising, Chain.atoms]
  | .link ps a o c => by
    rw [Text.Rising, Text.rising_iff c, Chain.Rising, Chain.atoms, List.forall_mem_cons]
    tauto

theorem Text.shiftedChain_eq : ∀ t : Text, Text.shiftedChain t = t.map Primary.shifted
  | .last _ _ => rfl
  | .link ps a o c => congrArg (Chain.link ps a.shifted o) (Text.shiftedChain_eq c)

theorem Text.groupedChain_eq : ∀ t : Text, Text.groupedChain t = t.map Primary.grouped
  | .last _ _ => rfl
  | .link ps a o c => congrArg (Chain.link ps a.grouped o) (Text.groupedChain_eq c)

theorem Text.shifted_eq_iff (t : Text) : Text.shifted t = Text.grouped t ↔
    Chain.Rising InfixOp.prec t ∧ ∀ a ∈ t.atoms, a.shifted = a.grouped := by
  rw [Text.shifted, Text.grouped, Text.shiftedChain_eq, Text.groupedChain_eq]
  exact Chain.eval_shift_eq_group_iff exprSyntax Primary.weight_eq t

theorem Text.shifted_eq_grouped_of {t : Text} (h : ∀ a ∈ t.atoms, (a.shifted = a.grouped ↔ a.Rising)) :
    Text.shifted t = Text.grouped t ↔ Text.Rising t := by
  rw [Text.shifted_eq_iff, Text.rising_iff]
  exact and_congr_right' (forall₂_congr h)

mutual

theorem Primary.shifted_eq_grouped : ∀ a : Primary, a.shifted = a.grouped ↔ a.Rising
  | .operand _ | .call0 _ => ⟨fun _ => trivial, fun _ => rfl⟩
  | .paren t => Text.shifted_eq_grouped_of (Text.atoms_eq t)
  | .call1 m t => by
    rw [Primary.Rising, ← Text.shifted_eq_grouped_of (Text.atoms_eq t)]
    exact Expr.call1.injEq .. ▸ ⟨And.right, And.intro rfl⟩
  | .call2 m t u => by
    rw [Primary.Rising, ← Text.shifted_eq_grouped_of (Text.atoms_eq t),
      ← Text.shifted_eq_grouped_of (Text.atoms_eq u)]
    exact Expr.call2.injEq .. ▸ ⟨And.right, And.intro rfl⟩

theorem Text.atoms_eq : ∀ t : Text, ∀ a ∈ t.atoms, (a.shifted = a.grouped ↔ a.Rising)
  | .last _ a, _, hb => List.mem_singleton.1 hb ▸ a.shifted_eq_grouped
  | .link _ a _ c, b, hb => (List.mem_cons.1 hb).elim (· ▸ a.shifted_eq_grouped) (Text.atoms_eq c b)

end

/-- What the IL of an expression evaluates to, registers and immediates put in. -/
def LiftEnv.value (E : LiftEnv) (imms : ImmLetter → BitVec 32) (s : PhysState) (e : Expr) : Option (BitVec 64) :=
  e.transform.map fun v => ((E.expr imms v.expr).map LReg.index).eval s

/-- **Where the parser groups as C does**: exactly on the texts that rise; there the IL has C's value in every state. -/
theorem parse_groups_as_c (t : Text) :
    (parseExpr (Text.tokens t) = some (Text.grouped t) ↔ Text.Rising t) ∧
      (Text.Rising t → ∀ (E : LiftEnv) (imms : ImmLetter → BitVec 32) (s : PhysState),
        (parseExpr (Text.tokens t)).bind (E.value imms s) = E.value imms s (Text.grouped t)) := by
  have hiff : parseExpr (Text.tokens t) = some (Text.grouped t) ↔ Text.Rising t := by
    rw [parseExpr_tokens, Option.some.injEq]
    exact Text.shifted_eq_grouped_of (Text.atoms_eq t)
  refine ⟨hiff, fun h E imms s => ?_⟩
  rw [hiff.2 h]
  rfl

/-- The expression of `S4_subaddi`: `RsV - RuV + fIMMEXT(siV)`. -/
def subaddiText : Text :=
  .link [] (.operand (.regOld .R ⟨.s, false⟩)) (.binop .sub)
    (.link [] (.operand (.regOld .R ⟨.u, false⟩)) (.binop .add)
      (.last [] (.call1 .fImmext (.last [] (.operand (.imm .s))))))

/-- `S4_subaddi` adds its immediate to `Ru` before it subtracts. -/
theorem subaddi_misgrouped : ∃ (E : LiftEnv) (imms : ImmLetter → BitVec 32) (s : PhysState),
    (parseExpr (Text.tokens subaddiText)).bind (E.value imms s) = some 0xffffffff ∧
      E.value imms s (Text.grouped subaddiText) = some 1 :=
  ⟨⟨[(.oldV .R ⟨.s, false⟩, .hex 1), (.oldV .R ⟨.u, false⟩, .hex 2)], 0, 0, false⟩, fun _ => 1,
    ⟨fun _ => 0, fun _ _ => 0, fun _ => 0⟩, by decide +kernel, by decide +kernel⟩

end Hex
