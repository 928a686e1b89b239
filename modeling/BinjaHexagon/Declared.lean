import BinjaHexagon.LiftDests
/-!
# Declared — what the declarations of a lift function amount to

Every declared name has a place: an architectural register, the copy of a source pair, or a destination of the packet.
The names and places of an instruction do not depend on the packet; only the copies do, which a destination asks for the
first time it is registered.
-/
namespace Hex

/-- Where a declared name is kept, and what its declaration asks for. -/
inductive Place where
  | plain (r : Nat)
  | pair (r : Nat)
  | dest (rw : Bool) (size : Nat) (r : Nat)
  deriving Repr, DecidableEq

namespace Place

def loc : Place → LReg Temp
  | plain r => .hex r
  | pair r => .temp (.reg 1 r)
  | dest _ _ r => .temp (.reg 0 r)

/-- The declaration itself. -/
def declare (name : RegName) (st : LiftState) : Place → LiftState
  | plain r => { st with env := (name, .hex r) :: st.env }
  | pair r => { st with env := (name, .temp (.reg 1 r)) :: st.env, code := st.code ++ [copyToTemp 8 r 1] }
  | dest rw size r => st.addDest name rw size r

end Place

namespace Insn

variable (i : Insn)

/-- The place of operand `n`. -/
def place (n : Nat) (d : OperandDecl) : Option Place :=
  let r := mapRegNum d.regtype (i.reg n)
  match d.kind with
  | none => none
  | some .plain => some (.plain r)
  | some .sourcePair => some (.pair r)
  | some (.dest rw size) => some (.dest rw size r)

def operandPlaces : Nat → List OperandDecl → List (RegName × Place)
  | _, [] => []
  | n, d :: ds =>
    match i.place n d with
    | some p => (d.name, p) :: operandPlaces (n + 1) ds
    | none => operandPlaces (n + 1) ds

def predPlaces : List (RegName × Place) :=
  (fixedPreds i.opcode.parts).map fun n => (.pd n, .dest true 1 (mapRegNum .P n))

/-- Everything the lift function declares, in order. -/
def places : List (RegName × Place) := i.operandPlaces 0 i.opcode.regs ++ i.predPlaces

theorem declareAll_eq : ∀ (ds : List OperandDecl) (n : Nat) (st : LiftState),
    LiftState.declareAll i n ds st = (i.operandPlaces n ds).foldl (fun st p => p.2.declare p.1 st) st
  | [], _, _ => rfl
  | d :: ds, n, st => by
    rw [LiftState.declareAll, declareAll_eq ds, operandPlaces, place, LiftState.declare]
    cases d.kind with
    | none => rfl
    | some k => cases k <;> rfl

theorem declarePreds_eq : ∀ (ns : List Nat) (st : LiftState), LiftState.declarePreds ns st =
    (ns.map fun n => ((.pd n, .dest true 1 (mapRegNum .P n)) : RegName × Place)).foldl
      (fun st p => p.2.declare p.1 st) st
  | [], _ => rfl
  | _ :: ns, _ => declarePreds_eq ns _

theorem declared_eq (ctx : PacketContext) :
    i.declared ctx = i.places.foldl (fun st p => p.2.declare p.1 st) ⟨ctx, [], []⟩ := by
  rw [declared, declarePreds_eq, declareAll_eq, places, List.foldl_append]
  rfl

theorem env_foldl : ∀ (ps : List (RegName × Place)) (st : LiftState),
    (ps.foldl (fun st p => p.2.declare p.1 st) st).env = (ps.map fun p => (p.1, p.2.loc)).reverse ++ st.env
  | [], _ => rfl
  | p :: ps, st => by
    rw [List.foldl_cons, env_foldl ps, List.map_cons, List.reverse_cons, List.append_assoc]
    refine congrArg _ ?_
    cases p.2 <;> rfl

theorem env_declared (ctx : PacketContext) :
    (i.declared ctx).env = (i.places.map fun p => (p.1, p.2.loc)).reverse := by
  rw [declared_eq, env_foldl, List.append_nil]

theorem mem_operandPlaces {q : RegName × Place} : ∀ {ds : List OperandDecl} {n : Nat}, q ∈ i.operandPlaces n ds →
    ∃ k d, ds[k]? = some d ∧ i.place (n + k) d = some q.2 ∧ q.1 = d.name
  | [], _, h => absurd h List.not_mem_nil
  | d :: ds, n, h => by
    have hrest : q ∈ i.operandPlaces (n + 1) ds →
        ∃ k e, (d :: ds)[k]? = some e ∧ i.place (n + k) e = some q.2 ∧ q.1 = e.name := fun h => by
      obtain ⟨k, e, he, hp, hn⟩ := mem_operandPlaces h
      exact ⟨k + 1, e, he, by rwa [Nat.add_assoc, Nat.add_comm 1] at hp, hn⟩
    unfold operandPlaces at h
    split at h
    · rename_i p hp
      rcases List.mem_cons.1 h with rfl | h
      · exact ⟨0, d, rfl, hp, rfl⟩
      · exact hrest h
    · exact hrest h

theorem operandPlaces_mem {d : OperandDecl} {p : Place} : ∀ {ds : List OperandDecl} {n k : Nat}, ds[k]? = some d →
    i.place (n + k) d = some p → (d.name, p) ∈ i.operandPlaces n ds
  | [], _, _, h, _ => by cases h
  | e :: ds, n, k, h, hp => by
    unfold operandPlaces
    cases k with
    | zero =>
      obtain rfl : e = d := Option.some.inj h
      rw [Nat.add_zero] at hp
      rw [hp]
      exact List.mem_cons_self
    | succ k =>
      have hp' : i.place (n + 1 + k) d = some p := by rwa [Nat.add_assoc, Nat.add_comm 1]
      have := operandPlaces_mem (n := n + 1) (show ds[k]? = some d from h) hp'
      split
      · exact List.mem_cons_of_mem _ this
      · exact this

theorem names_operandPlaces : ∀ (ds : List OperandDecl) (n : Nat),
    ((i.operandPlaces n ds).map Prod.fst).Sublist (ds.map OperandDecl.name)
  | [], _ => List.Sublist.slnil
  | d :: ds, n => by
    unfold operandPlaces
    split
    · exact (names_operandPlaces ds (n + 1)).cons_cons _
    · exact (names_operandPlaces ds (n + 1)).cons _

end Insn

theorem nodup_fixedPreds : ∀ ps : List Stmt, (fixedPreds ps).Nodup
  | [] => List.nodup_nil
  | p :: ps => by
    unfold fixedPreds
    split
    · split
      · exact List.nodup_cons.2 ⟨fun h => by simp at h, (nodup_fixedPreds ps).filter _⟩
      · exact nodup_fixedPreds ps
    · exact nodup_fixedPreds ps

theorem OperandDecl.name_ne_pd (d : OperandDecl) (n : Nat) : d.name ≠ .pd n := by
  unfold OperandDecl.name
  split <;> exact RegName.noConfusion

namespace Insn

variable {i : Insn}

theorem wellScoped (hs : i.opcode.supported = true) : (i.opcode.regs.map OperandDecl.name).Nodup ∧
    ∀ b ∈ i.opcode.gen.getD [], ∀ p ∈ b.paths, scopedPath i.opcode.sources [] (p.filterMap GenItem.access) = true := by
  have h := i.opcode.wellScoped hs
  simp only [OpcodeRow.wellScoped, Bool.and_eq_true, decide_eq_true_eq, List.all_eq_true] at h
  exact h

theorem nodup_places (hs : i.opcode.supported = true) : (i.places.map Prod.fst).Nodup := by
  rw [places, List.map_append]
  refine List.nodup_append.2 ⟨(i.names_operandPlaces _ _).nodup (wellScoped hs).1, ?_, fun a ha b hb => ?_⟩
  · rw [predPlaces, List.map_map]
    exact (nodup_fixedPreds _).map fun a b h => RegName.pd.inj h
  · obtain ⟨q, hq, rfl⟩ := List.mem_map.1 ha
    obtain ⟨k, d, -, -, hn⟩ := i.mem_operandPlaces hq
    simp only [predPlaces, List.map_map, List.mem_map] at hb
    obtain ⟨n, -, rfl⟩ := hb
    rw [hn]
    exact d.name_ne_pd n

/-- A name of the declarations is not one of the fixed ones. -/
theorem resolve_eq_lookup {q : RegName × Place} (hq : q ∈ i.places) (env : List (RegName × LReg Temp)) (n : Nat) :
    resolveReg env n q.1 = (env.lookup q.1).getD (.hex 0) := by
  rcases List.mem_append.1 hq with hq | hq
  · obtain ⟨k, d, -, -, hn⟩ := i.mem_operandPlaces hq
    rw [hn, resolveReg_name]
  · obtain ⟨n, -, rfl⟩ := List.mem_map.1 hq
    rfl

/-- **A declared name stands for its place.** -/
theorem resolve_place (hs : i.opcode.supported = true) {q : RegName × Place} (hq : q ∈ i.places)
    (ctx : PacketContext) (n : Nat) : resolveReg (i.declared ctx).env n q.1 = q.2.loc := by
  have hnodup : ((i.places.map fun p => (p.1, p.2.loc)).reverse.map Prod.fst).Nodup := by
    rw [List.map_reverse, List.nodup_reverse, List.map_map]
    exact nodup_places hs
  have hmem : (q.1, q.2.loc) ∈ (i.places.map fun p => (p.1, p.2.loc)).reverse :=
    List.mem_reverse.2 (List.mem_map.2 ⟨q, hq, rfl⟩)
  rw [resolve_eq_lookup hq, env_declared, lookup_of_mem hnodup hmem, Option.getD_some]
where
  lookup_of_mem {l : List (RegName × LReg Temp)} {a : RegName} {b : LReg Temp} (hn : (l.map Prod.fst).Nodup)
      (h : (a, b) ∈ l) : l.lookup a = some b := by
    induction l with
    | nil => exact absurd h List.not_mem_nil
    | cons p l ih =>
      rw [List.map_cons, List.nodup_cons] at hn
      rcases List.mem_cons.1 h with rfl | h
      · exact List.lookup_cons_self
      · have hne : (a == p.1) = false := beq_eq_false_iff_ne.2 fun heq => hn.1 (List.mem_map.2 ⟨(a, b), h, heq⟩)
        rw [List.lookup_cons, hne]
        exact ih hn.2 h

/-- A name that stands for a temporary of `TempReg` was declared. -/
theorem place_of_resolve {ctx : PacketContext} {n : Nat} {r : RegName} {ss q : Nat}
    (h : resolveReg (i.declared ctx).env n r = .temp (.reg ss q)) :
    ∃ p, (r, p) ∈ i.places ∧ p.loc = .temp (.reg ss q) := by
  have hlook : ∀ r, (((i.declared ctx).env.lookup r).getD (.hex 0) = .temp (.reg ss q)) →
      ∃ p, (r, p) ∈ i.places ∧ p.loc = .temp (.reg ss q) := by
    intro r h
    cases hl : (i.declared ctx).env.lookup r with
    | none => rw [hl] at h; cases h
    | some l =>
      rw [hl, Option.getD_some] at h
      obtain ⟨l₁, l₂, hl', -⟩ := List.lookup_eq_some_iff.1 hl
      have hmem : (r, l) ∈ (i.declared ctx).env := by rw [hl']; simp
      rw [env_declared, List.mem_reverse, List.mem_map] at hmem
      obtain ⟨p, hp, he⟩ := hmem
      cases he
      exact ⟨p.2, hp, h⟩
  cases r with
  | hexReg r => cases h
  | eaReg | tmpReg | widthReg | offsetReg | shamtReg | branchrDest | branchTaken => cases h
  | oldV t id => exact hlook _ h
  | newN t id => exact hlook _ h
  | pd k => exact hlook _ h

end Insn
end Hex
