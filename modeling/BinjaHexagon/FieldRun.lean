import BinjaHexagon.BodyRun
import BinjaHexagon.FieldInsn
import BinjaHexagon.ParallelReads
/-!
# FieldRun — the bit-field instructions at their indices

The copy of `R5:4` has the index of `width`, which an `insert` or `extract` of that pair assigns before it reads the
copy. Everywhere else the instruction does at its indices what it does with a place for every variable.
-/
namespace Hex

open CInt (Ty Val)
open Flow (Block)
open Opcodes (rd rs rt rx rdd rss rtt rxx pu puNew ps val var int add)

/-- Every shift of a step is in range, its variables at their indices. -/
def Step.InRange (x : PhysState × Step) : Prop := ∀ e ∈ x.2.exprs, (e.map LReg.index).ShiftsInRange x.1

theorem State.eq_of_parts {τ : Type} : ∀ {s t : State τ}, s.reg = t.reg → s.temp = t.temp → s.mem = t.mem → s = t
  | ⟨_, _, _⟩, ⟨_, _, _⟩, rfl, rfl, rfl => rfl

section InRange

variable {u s : PhysState} {l : State Temp}

theorem Mirrors.shifts (h : Mirrors u s l) : ∀ {e : LExpr Temp}, (∀ q ∈ e.reads, ∀ t, q.2 = .temp t → t.Valid) →
    (∀ q ∈ e.reads, ∀ r, q.2 = .temp (.reg 1 r) → ∀ k < q.1,
      s.temp (Temp.reg 1 r).index k = u.temp (Temp.reg 1 r).index k) →
    ((e.map LReg.index).ShiftsInRange s ↔ e.ShiftsInRange l)
  | .register _ _, _, _ | .registerSplit _ _ _, _, _ | .const _ _, _, _ | .constPointer _ _, _, _ | .readGp _, _, _ =>
      Iff.rfl
  | .unop _ _ a, hv, hp => h.shifts (e := a) hv hp
  | .load _ a, hv, hp => h.shifts (e := a) hv hp
  | .binop o n a b, hv, hp => by
    have ha := h.shifts (e := a) (fun q hq => hv q (List.mem_append_left _ hq)) fun q hq =>
      hp q (List.mem_append_left _ hq)
    have hvb : ∀ q ∈ b.reads, ∀ t, q.2 = .temp t → t.Valid := fun q hq => hv q (List.mem_append_right _ hq)
    have hpb : ∀ q ∈ b.reads, ∀ r, q.2 = .temp (.reg 1 r) → ∀ k < q.1,
        s.temp (Temp.reg 1 r).index k = u.temp (Temp.reg 1 r).index k := fun q hq => hp q (List.mem_append_right _ hq)
    have hb := h.shifts (e := b) hvb hpb
    have heval := h.eval hvb hpb
    change ((o.isShift = true → ((b.map LReg.index).eval s).toNat < 8 * n) ∧ (a.map LReg.index).ShiftsInRange s ∧
      (b.map LReg.index).ShiftsInRange s) ↔ _
    rw [heval, ha, hb]
    exact Iff.rfl
  | .compare _ _ a b, hv, hp => and_congr
    (h.shifts (e := a) (fun q hq => hv q (List.mem_append_left _ hq)) fun q hq => hp q (List.mem_append_left _ hq))
    (h.shifts (e := b) (fun q hq => hv q (List.mem_append_right _ hq)) fun q hq => hp q (List.mem_append_right _ hq))

theorem stepInRange_iff (y : State Temp × Step) : StepInRange y ↔ ∀ e ∈ Step.exprs y.2, e.ShiftsInRange y.1 := by
  obtain ⟨l, a | c⟩ := y
  · cases a with
    | il x => exact Iff.rfl
    | branch k d => exact iff_of_true trivial fun e he => absurd he List.not_mem_nil
  · exact (List.forall_mem_singleton (p := fun e : LExpr Temp => e.ShiftsInRange l)).symm

theorem Mirrors.inRange (h : Mirrors u s l) {e : Step} (ha : Alike u s e) : Step.InRange (s, e) ↔ StepInRange
    (l, e) := by
  rw [stepInRange_iff]
  refine forall₂_congr fun x hx => ?_
  have hmem : ∀ q ∈ x.reads, q ∈ e.reads := fun q hq => by
    cases e with
    | inl a =>
      cases a with
      | il i => exact List.mem_flatMap.2 ⟨x, hx, hq⟩
      | branch k d => exact absurd hx List.not_mem_nil
    | inr c =>
      obtain rfl := List.mem_singleton.1 hx
      exact hq
  exact h.shifts (fun q hq t ht => (ha.fine.reads q (hmem q hq) t ht).1) fun q hq => ha.keeps q (hmem q hq)

theorem forall_mem_iff {α β : Type} {P : α → Prop} {Q : β → Prop} {l : List α} {m : List β}
    (h : List.Forall₂ (fun a b => P a ↔ Q b) l m) : (∀ a ∈ l, P a) ↔ ∀ b ∈ m, Q b := by
  induction h with
  | nil => simp
  | cons hab _ ih => simp only [List.forall_mem_cons, hab, ih]

/-- The shifts of a behaviour are in range at the indices as they are with a place for every variable. -/
theorem inRange_body {pc : BitVec 64} {i : Insn} {n : Nat} {ctx : PacketContext} (hn : n < 10) {u v : PhysState}
    (hkeep : ∀ x ∈ (lift pc i n ctx).body.log bodySem u, KeepsPairs v x.1 x.2) :
    (∀ x ∈ (lift pc i n ctx).body.log bodySem u, Step.InRange x) ↔
      ∀ y ∈ (lift pc i n ctx).body.log varSem (u.withPairs v), StepInRange y := by
  have halike : ∀ x ∈ (lift pc i n ctx).body.log bodySem u, Alike v x.1 x.2 := fun x hx =>
    ⟨(fine_body hn hx).1, (fine_body hn hx).2, hkeep x hx⟩
  refine forall_mem_iff (((List.forall₂_and_left _ _).2 ⟨halike, (body_mirrors hn u v hkeep).2⟩).imp ?_)
  rintro ⟨s, e⟩ ⟨l, e'⟩ ⟨ha, rfl, hm⟩
  exact hm.inRange ha

end InRange

namespace FieldRow

/-- The scratch variables of the row. -/
def scratch : FieldRow → List Temp
  | s2Insert | s2Insertp | extract _ _ => [.width, .offset]
  | a4Bitsplit => [.shamt]
  | _ => []

/-- The row has its field in a pair. -/
def ofPair : FieldRow → Bool
  | s2Insertp => true
  | extract _ pair => pair
  | _ => false

/-- The immediate that is left at the index of the copy of `Rss`: the width for `R5:4`. -/
def lost (r : FieldRow) (i : Insn) : Option ImmLetter :=
  if r.ofPair then
    if (Temp.reg 1 (i.reg 1)).index = Temp.width.index then some .u
    else if (Temp.reg 1 (i.reg 1)).index = Temp.offset.index then some .U
    else none
  else none

/-- The bits the row reads of `x` are those of `y`. -/
def SameField (r : FieldRow) (imm : ImmLetter → Val) (x y : Val) : Prop :=
  match r with
  | s2Insertp => ∀ k : Nat, k < 32 → (imm .U).val ≤ k → k < (imm .U).val + (imm .u).val →
      x.val.testBit (k - (imm .U).val.toNat) = y.val.testBit (k - (imm .U).val.toNat)
  | extract _ true => ∀ k : Nat, k < 64 → (imm .U).val ≤ k → k < (imm .U).val + (imm .u).val →
      x.val.testBit k = y.val.testBit k
  | _ => True

/-- The test the assignments stand under is passed. -/
def Passed (r : FieldRow) (E : LiftEnv) (imms : ImmLetter → BitVec 32) (u : PhysState) : Prop :=
  ∀ c ∈ r.guard, ∃ v, c.transform = some v ∧ bodySem.test (E.expr imms v.expr) u = true

/-- The instruction, its behaviour begun in state `u`, does what it does in C: no shift goes past its operand, C's
result is left in the destination if the test is passed, and nothing else but its scratch variables is changed. -/
structure Exact (r : FieldRow) (i : Insn) (pc : BitVec 64) (n : Nat) (ctx : PacketContext) (u : PhysState) : Prop where
  inRange : ∀ x ∈ (lift pc i n ctx).body.log bodySem u, Step.InRange x
  result : r.Passed (i.liftEnv pc n ctx) i.immEnv u →
    ∃ y, r.result (regVal (i.liftEnv pc n ctx) u.vars) (immVal i.immEnv) = some y ∧
      ((lift pc i n ctx).body.run bodySem u).get (regBytes r.dst.regtype r.dst.regid)
        ((i.liftEnv pc n ctx).operand r.dst).index = held (regBytes r.dst.regtype r.dst.regid) y.val
  reg : ((lift pc i n ctx).body.run bodySem u).reg = u.reg
  mem : ((lift pc i n ctx).body.run bodySem u).mem = u.mem
  temp : ∀ t, ((i.liftEnv pc n ctx).operand r.dst).index ≠ .temp t → (∀ v ∈ r.scratch, v.index ≠ t) →
    ((lift pc i n ctx).body.run bodySem u).temp t = u.temp t
  untaken : ¬r.Passed (i.liftEnv pc n ctx) i.immEnv u → (lift pc i n ctx).body.run bodySem u = u

/-- An item that sets the destination or one of the scratch variables. -/
def sets (r : FieldRow) (own : List Temp) : GenItem → Bool
  | .insn (.setRegister _ x _) => x == r.dst.name || x.scratch?.any own.contains
  | _ => false

theorem behaviour_sets (r : FieldRow) (condJ : Bool) :
    ∃ b, r.behaviour.transform condJ = some b ∧ b.acts.all (r.sets r.scratch) = true := by
  cases r with
  | extend signed half => cases signed <;> cases half <;> exact ⟨_, rfl, rfl⟩
  | condExtend signed half sense new =>
    cases signed <;> cases half <;> cases sense <;> cases new <;> exact ⟨_, rfl, rfl⟩
  | hlL16 sub high => cases sub <;> cases high <;> exact ⟨_, rfl, rfl⟩
  | addsp high => cases high <;> exact ⟨_, rfl, rfl⟩
  | extract signed pair => cases signed <;> cases pair <;> exact ⟨_, rfl, rfl⟩
  | _ => exact ⟨_, rfl, rfl⟩

section Instruction

variable {r : FieldRow} {i : Insn} {pc : BitVec 64} {n q : Nat} {ctx : PacketContext} {b : GBlock} {own : List Temp}

theorem resolve_scratch {E : LiftEnv} {x : RegName} {t : Temp} (h : x.scratch? = some t) :
    resolveReg E.regs E.insnNum x = .temp t := by
  cases x <;> cases h <;> rfl

theorem acts_of_sets (hq : r.Placed (i.liftEnv pc n ctx) q) (hb : b.acts.all (r.sets own) = true)
    {imms : ImmLetter → BitVec 32} {a : LiftAct}
    (ha : a ∈ (b.instantiate (i.liftEnv pc n ctx).item (i.liftEnv pc n ctx).expr imms).2.acts) :
    ∃ m t e, a = .il (.setRegister m (.temp t) e) ∧ (t = .reg 0 q ∨ t ∈ own) := by
  obtain ⟨it, hit, j, hj⟩ := Block.mem_acts_instantiate _ _ _ _ ha
  have hset := List.all_eq_true.1 hb it hit
  cases it with
  | branch k d | pcalign l => cases hset
  | insn y =>
    cases y with
    | setRegister m x e =>
      obtain rfl := Option.some.inj hj
      rcases Bool.or_eq_true_iff.1 hset with hx | hx
      · obtain rfl := eq_of_beq hx
        refine ⟨m, _, (i.liftEnv pc n ctx).expr j e, ?_, .inl rfl⟩
        rw [← hq.dst]
        rfl
      · obtain ⟨t, ht, hown⟩ : ∃ t, x.scratch? = some t ∧ t ∈ own := by
          cases hs : x.scratch? with
          | none =>
            rw [hs] at hx
            cases hx
          | some t =>
            rw [hs] at hx
            exact ⟨t, rfl, by simpa using hx⟩
        refine ⟨m, t, (i.liftEnv pc n ctx).expr j e, ?_, .inr hown⟩
        rw [← @resolve_scratch (i.liftEnv pc n ctx) _ _ ht]
        rfl
    | _ => cases hset

theorem Of.acts (h : r.Of i) (hq : r.Placed (i.liftEnv pc n ctx) q) {a : LiftAct}
    (ha : a ∈ (lift pc i n ctx).body.acts) :
    ∃ m t e, a = .il (.setRegister m (.temp t) e) ∧ (t = .reg 0 q ∨ t ∈ r.scratch) := by
  obtain ⟨b, hb, hsets⟩ := r.behaviour_sets (i.opcode.attrib .bnCondJ)
  rw [h.body, h.semantics hb] at ha
  exact acts_of_sets hq hsets ha

/-- What no assignment of the row touches stays as it was. -/
theorem Of.frame (h : r.Of i) (hq : r.Placed (i.liftEnv pc n ctx) q) (u : PhysState) :
    ((lift pc i n ctx).body.run bodySem u).reg = u.reg ∧ ((lift pc i n ctx).body.run bodySem u).mem = u.mem ∧
      ∀ t, (Temp.reg 0 q).index ≠ t → (∀ v ∈ r.scratch, v.index ≠ t) →
        ((lift pc i n ctx).body.run bodySem u).temp t = u.temp t := by
  refine Block.run_induction bodySem (fun s : PhysState => s.reg = u.reg ∧ s.mem = u.mem ∧
    ∀ t, (Temp.reg 0 q).index ≠ t →
    (∀ v ∈ r.scratch, v.index ≠ t) → s.temp t = u.temp t) _ (fun a ha s hs => ?_) u ⟨rfl, rfl, fun _ _ _ => rfl⟩
  obtain ⟨m, w, e, rfl, hw⟩ := h.acts hq ha
  refine ⟨hs.1, hs.2.1, fun t hdst hown => ?_⟩
  have hne : t ≠ w.index := by
    rcases hw with rfl | hw
    · exact fun he => hdst he.symm
    · exact fun he => hown w hw he.symm
  exact (State.setTemp_temp_ne _ _ _ hne).trans (hs.2.2 t hdst hown)

theorem Of.dst_valid (h : r.Of i) (hq : r.Placed (i.liftEnv pc n ctx) q) : (Temp.reg 0 q).Valid := by
  obtain ⟨hmem, rw, size, hkind⟩ := r.dst_mem
  obtain ⟨k, hk⟩ := List.mem_iff_getElem?.1 hmem
  have hplace : i.place k r.dst = some (.dest rw size (mapRegNum r.dst.regtype (i.reg k))) := by rw [Insn.place, hkind]
  have hloc := hq.dst
  rw [operand_of_place h.supported (h.regs ▸ hk) hplace] at hloc
  cases hloc
  have hin := i.operandPlaces_mem (n := 0) (h.regs ▸ hk) (by rwa [Nat.zero_add])
  exact ⟨Nat.zero_le 1, (Insn.good_of_place (List.mem_append_left _ hin)).reg_lt⟩

theorem Of.dst_index (h : r.Of i) (hq : r.Placed (i.liftEnv pc n ctx) q) (p : Nat) :
    (Temp.reg 0 q).index ≠ (Temp.reg 1 p).index := by
  have hlt := (h.dst_valid hq).2
  simp only [Temp.index, numHexRegs] at hlt ⊢
  omega

/-- A pair among the operands of a row with scratch variables is `Rss`. -/
theorem pair_operand {k : Nat} {d : OperandDecl} (hd : r.regs[k]? = some d) (hk : d.kind = some .sourcePair)
    (hown : r.scratch ≠ []) : r.ofPair = true ∧ d = rss ∧ k = 1 := by
  cases r with
  | s2Insert | a4Bitsplit => rcases k with _ | _ | _ | k <;> cases hd <;> cases hk
  | s2Insertp => rcases k with _ | _ | k <;> cases hd <;> first | exact ⟨rfl, rfl, rfl⟩ | cases hk
  | extract signed pair =>
    cases pair <;> rcases k with _ | _ | k <;> cases hd <;> first | exact ⟨rfl, rfl, rfl⟩ | cases hk
  | _ => exact absurd rfl hown

theorem rss_of_ofPair (hr : r.ofPair = true) : r.regs[1]? = some rss := by
  cases r with
  | s2Insertp => rfl
  | extract signed pair =>
    obtain rfl : pair = true := hr
    rfl
  | _ => cases hr

/-- A copy whose index no scratch variable of the row has is read as the declarations left it. -/
theorem Of.keepsPairs (h : r.Of i) (hl : r.lost i = none) (u : PhysState) :
    ∀ x ∈ (lift pc i n ctx).body.log bodySem u, KeepsPairs u x.1 x.2 := by
  rintro ⟨t, e⟩ hx ⟨m, w⟩ hq p rfl k hk
  obtain ⟨q, hplaced⟩ := @Of.placed r i pc n ctx h
  have hmem := Block.mem_path (Block.log_mem_paths bodySem (lift pc i n ctx).body u) e (List.mem_map_of_mem hx)
  obtain ⟨-, x, hname, -⟩ := body_name hmem (.inl hq) rfl
  obtain ⟨p', hp', hplace⟩ := Insn.place_of_pair hname rfl
  cases hp'
  have hne : ∀ v ∈ r.scratch, v.index ≠ (Temp.reg 1 p).index := by
    intro v hv hi
    obtain ⟨j, d, hj, -, hkind, rfl⟩ := Insn.operand_of_pair hplace
    rw [h.regs] at hj
    obtain ⟨hpair, rfl, rfl⟩ := pair_operand hj hkind (List.ne_nil_of_mem hv)
    have hbase : mapRegNum rss.regtype (i.reg 1) = i.reg 1 := Nat.zero_add _
    rw [hbase] at hi
    rw [lost, if_pos hpair] at hl
    have hv' : v = .width ∨ v = .offset := by
      cases r with
      | s2Insertp | extract _ _ => simpa [scratch] using hv
      | _ => cases hpair
    rcases hv' with rfl | rfl
    · rw [if_pos hi.symm] at hl
      cases hl
    · rw [if_neg (by rw [← hi]; decide), if_pos hi.symm] at hl
      cases hl
  have hputs : ∀ a ∈ (lift pc i n ctx).body.acts, ∀ s, a.puts (Temp.reg 1 p).index k s = none := by
    intro a ha s
    obtain ⟨m, w, e, rfl, hw⟩ := h.acts hplaced ha
    refine if_neg fun hi => ?_
    rcases hw with rfl | hw
    · exact h.dst_index hplaced p hi.1
    · exact hne w hw hi.1
  obtain ⟨l, l', hlog⟩ := List.append_of_mem hx
  rw [(temp_log single_body _ k u).2 l t e l' hlog, (lastOf_log_eq_none hputs u).2 l t e l' hlog, Option.getD_none]

/-- The state behind `width=uiV; offset=UiV;`. -/
def scratched (imms : ImmLetter → BitVec 32) (u : PhysState) : PhysState :=
  (u.setTemp 8 Temp.width.index (held 4 (imms .u).toInt)).setTemp 8 Temp.offset.index (held 4 (imms .U).toInt)

/-- A row with its field in a pair sets `width` and `offset` and then the destination only. -/
theorem Of.fields (h : r.Of i) (hr : r.ofPair = true) (hq : r.Placed (i.liftEnv pc n ctx) q) :
    ∃ a b rest, (lift pc i n ctx).body = .act a (.act b rest) ∧
      (Step.reads (.inl a) = [] ∧ ∀ s : PhysState,
        bodySem.exec a s = s.setTemp 8 Temp.width.index (held 4 (i.immEnv .u).toInt)) ∧
      (Step.reads (.inl b) = [] ∧ ∀ s : PhysState,
        bodySem.exec b s = s.setTemp 8 Temp.offset.index (held 4 (i.immEnv .U).toInt)) ∧
      ∀ x ∈ rest.acts, ∃ m e, x = .il (.setRegister m (.temp (.reg 0 q)) e) := by
  have hshape : ∃ grest : GBlock, r.behaviour.transform (i.opcode.attrib .bnCondJ) =
      some (setRegister 8 .widthReg (liftOperand (.imm .u)) ++
        (setRegister 8 .offsetReg (liftOperand (.imm .U)) ++ grest)) ∧
      grest.acts.all (r.sets []) = true := by
    cases r with
    | s2Insertp => exact ⟨_, rfl, rfl⟩
    | extract signed pair =>
      obtain rfl : pair = true := hr
      cases signed <;> exact ⟨_, rfl, rfl⟩
    | _ => cases hr
  obtain ⟨grest, hb, hsets⟩ := hshape
  refine ⟨.il ((i.liftEnv pc n ctx).insn i.immEnv (.setRegister 8 .widthReg (liftOperand (.imm .u)).expr)),
    .il ((i.liftEnv pc n ctx).insn i.immEnv (.setRegister 8 .offsetReg (liftOperand (.imm .U)).expr)),
    (grest.instantiate (i.liftEnv pc n ctx).item (i.liftEnv pc n ctx).expr i.immEnv).2, ?_, ⟨rfl, fun s => ?_⟩,
    ⟨rfl, fun s => ?_⟩, fun x hx => ?_⟩
  · rw [h.body, h.semantics hb]
    rfl
  · exact congrArg (s.setTemp 8 Temp.width.index) (norm_ofInt 4 (i.immEnv .u).toInt)
  · exact congrArg (s.setTemp 8 Temp.offset.index) (norm_ofInt 4 (i.immEnv .U).toInt)
  · obtain ⟨m, t, e, rfl, rfl | ht⟩ := acts_of_sets hq hsets hx
    · exact ⟨m, e, rfl⟩
    · cases ht

theorem Of.keepsPairs_scratched (h : r.Of i) (hr : r.ofPair = true) (u : PhysState) :
    ∀ x ∈ (lift pc i n ctx).body.log bodySem u, KeepsPairs (scratched i.immEnv u) x.1 x.2 := by
  obtain ⟨q, hq⟩ := @Of.placed r i pc n ctx h
  obtain ⟨a, b, rest, hbody, ⟨ha, hea⟩, ⟨hb, heb⟩, hrest⟩ := h.fields hr hq
  have hstate : bodySem.exec b (bodySem.exec a u) = scratched i.immEnv u := by rw [heb, hea]; rfl
  rw [hbody]
  intro x hx
  rcases List.mem_cons.1 hx with rfl | hx
  · intro q hq
    rw [ha] at hq
    exact absurd hq List.not_mem_nil
  rcases List.mem_cons.1 hx with rfl | hx
  · intro q hq
    rw [hb] at hq
    exact absurd hq List.not_mem_nil
  · rw [hstate] at hx
    obtain ⟨t, e⟩ := x
    rintro ⟨m, w⟩ - p rfl k -
    have hsingle : SingleDest rest := fun x hx => by
      obtain ⟨m, e, he⟩ := hrest _ hx
      cases he
      exact Nat.le_refl 1
    have hputs : ∀ a ∈ rest.acts, ∀ s, a.puts (Temp.reg 1 p).index k s = none := by
      intro a ha s
      obtain ⟨m, e, rfl⟩ := hrest a ha
      exact if_neg fun hi => h.dst_index hq p hi.1
    obtain ⟨l, l', hlog⟩ := List.append_of_mem hx
    rw [(temp_log hsingle _ k _).2 l t e l' hlog, (lastOf_log_eq_none hputs _).2 l t e l' hlog, Option.getD_none]

theorem regVal_withPairs {E : LiftEnv} {d : OperandDecl} (hd : ∀ p, E.operand d ≠ .temp (.reg 1 p)) (u v : PhysState) :
    regVal E (u.withPairs v) d = regVal E u.vars d := by
  have hget : ∀ n, (u.withPairs v).get n (E.operand d) = u.vars.get n (E.operand d) := by
    intro n
    cases hl : E.operand d with
    | hex r => rfl
    | temp t =>
      have ht : t.isPair = false := by
        by_contra hp
        obtain ⟨p, rfl⟩ := Temp.eq_reg_of_isPair (by simpa using hp)
        exact hd p hl
      simp only [State.get, State.withPairs, State.vars, ht, Bool.false_eq_true, if_false]
  rw [regVal, regVal, hget]

/-- Where an immediate is left at the index of the copy, it is read for the pair. -/
theorem Of.testBit_lost (h : r.Of i) {l : ImmLetter} (hl : r.lost i = some l) (u : PhysState) {k : Nat} (hk : k < 64) :
    (regVal (i.liftEnv pc n ctx) (u.withPairs (scratched i.immEnv u)) rss).val.testBit k =
      (immVal i.immEnv l).val.testBit k := by
  have hr : r.ofPair = true := by
    by_contra hr
    rw [lost, if_neg hr] at hl
    cases hl
  have hloc : (i.liftEnv pc n ctx).operand rss = .temp (.reg 1 (i.reg 1)) := by
    have hplace : i.place 1 rss = some (.pair (i.reg 1)) :=
      congrArg (fun p => some (Place.pair p)) (show hexRegR00 + i.reg 1 = i.reg 1 from Nat.zero_add _)
    exact operand_of_place h.supported (h.regs ▸ rss_of_ofPair hr) hplace
  have hbits : ∀ l ∈ [ImmLetter.u, .U], (i.immEnv l).toNat < 2 ^ 31 := by
    obtain ⟨hu, hU⟩ := h.imms
    have h64 : (i.immEnv .u).toNat < 64 ∧ (i.immEnv .U).toNat < 64 := by
      cases r with
      | s2Insertp => exact ⟨hu 6 rfl, hU 6 rfl⟩
      | extract signed pair =>
        obtain rfl : pair = true := hr
        exact ⟨hu 6 rfl, hU 6 rfl⟩
      | _ => cases hr
    intro l hl
    rcases List.mem_pair.1 hl with rfl | rfl <;> omega
  have hget : (u.withPairs (scratched i.immEnv u)).get 8 (.temp (.reg 1 (i.reg 1))) = held 8 ((i.immEnv l).toNat :
    Int) ∧ (i.immEnv l).toNat < 2 ^ 31 := by
    have hphys : (u.withPairs (scratched i.immEnv u)).get 8 (.temp (.reg 1 (i.reg 1))) =
        (scratched i.immEnv u).get 8 (.temp (Temp.reg 1 (i.reg 1)).index) := rfl
    rw [lost, if_pos hr] at hl
    rw [hphys]
    split at hl
    · rename_i hi
      cases hl
      have hne : Temp.width.index ≠ Temp.offset.index := by decide
      rw [hi, scratched, State.get_setTemp_ne _ _ _ hne, held_imm (hbits .u (by simp))]
      refine ⟨(State.get_setTemp_same _ 8 _ _ (by decide)).trans ?_, hbits .u (by simp)⟩
      rw [norm_held (by decide), held_conv]
    · split at hl <;> cases hl
      rename_i hi
      rw [hi, scratched, held_imm (hbits .U (by simp))]
      refine ⟨(State.get_setTemp_same _ 8 _ _ (by decide)).trans ?_, hbits .U (by simp)⟩
      rw [norm_held (by decide), held_conv]
  rw [testBit_regVal (d := rss) hk, hloc, (immVal_val hget.2).1]
  change ((u.withPairs (scratched i.immEnv u)).get 8 (.temp (.reg 1 (i.reg 1)))).getLsbD k = _
  rw [hget.1, getLsbD_held, decide_eq_true hk, Bool.true_and, Bool.true_and]

/-- The state that stands for `u` with a place for every variable, and what the assignments leave from it. -/
structure Given (r : FieldRow) (i : Insn) (pc : BitVec 64) (n : Nat) (ctx : PacketContext) (u v : PhysState)
    (ok fine : Prop) :
    Prop where
  keeps : ∀ x ∈ (lift pc i n ctx).body.log bodySem u, KeepsPairs v x.1 x.2
  leaves : Leaves (i.liftEnv pc n ctx) i.immEnv (u.withPairs v) r.body r.dst
    (r.result (regVal (i.liftEnv pc n ctx) u.vars) (immVal i.immEnv)) ok fine
  fits : (ok ∧ fine) ↔ r.Fits (regVal (i.liftEnv pc n ctx) u.vars) (immVal i.immEnv) ∧
    ∀ l ∈ r.lost i, r.SameField (immVal i.immEnv) (regVal (i.liftEnv pc n ctx) u.vars rss) (immVal i.immEnv l)
  guarded : r.guard ≠ none → u.withPairs v = u.vars

theorem Of.given_kept (h : r.Of i) (hq : r.Placed (i.liftEnv pc n ctx) q) (hl : r.lost i = none) (u : PhysState) :
    ∃ ok fine, Given r i pc n ctx u u ok fine := by
  obtain ⟨ok, fine, hleaves, hfits⟩ := FieldRow.leaves (s := u.vars) hq h.imms
  refine ⟨ok, fine, h.keepsPairs hl u, ?_, ?_, fun _ => u.withPairs_self⟩
  · rw [State.withPairs_self]
    exact hleaves
  · rw [hfits, hl]
    simp

theorem Of.given_lost (h : r.Of i) (hq : r.Placed (i.liftEnv pc n ctx) q) {l : ImmLetter} (hl : r.lost i = some l)
    (u : PhysState) : ∃ ok fine, Given r i pc n ctx u (scratched i.immEnv u) ok fine := by
  have hr : r.ofPair = true := by
    by_contra hr
    rw [lost, if_neg hr] at hl
    cases hl
  have hrss := List.mem_of_getElem? (rss_of_ofPair hr)
  have hkeep := @Of.keepsPairs_scratched r i pc n ctx h hr u
  have hne := hq.ne hrss (.inr rfl)
  have hreg := hq.reg hrss (.inr rfl)
  have hread {k : Nat} (hk : k < 64) := @Of.testBit_lost r i pc n ctx h l hl u k hk
  obtain ⟨hu, hU⟩ := h.imms
  have hdst := hq.dst
  cases r with
  | s2Insertp =>
    have hu : (i.immEnv .u).toNat < 64 := hu 6 rfl
    have hU : (i.immEnv .U).toNat < 64 := hU 6 rfl
    have hrxx : regVal (i.liftEnv pc n ctx) (u.withPairs (scratched i.immEnv u)) rxx =
        regVal (i.liftEnv pc n ctx) u.vars rxx :=
      regVal_withPairs (fun p hp => by rw [show rxx = dst s2Insertp from rfl, hdst] at hp; cases hp) u _
    refine ⟨_, _, hkeep, leaves_insertp hdst hne hreg hu hU rfl (congrArg Val.val hrxx.symm), ?_,
      fun hg => absurd rfl hg⟩
    rw [Fits, hl, hrxx, (@immVal_val i.immEnv .u (by omega)).1, (@immVal_val i.immEnv .U (by omega)).1, true_and]
    simp only [Option.mem_some_iff, forall_eq', SameField, (@immVal_val i.immEnv .u (by omega)).1,
      (@immVal_val i.immEnv .U (by omega)).1, Int.toNat_natCast]
    constructor
    · intro hall
      constructor
      · intro k h32 h64 hlo hhi
        rw [hall k h64 (by exact_mod_cast hlo) (by exact_mod_cast hhi), if_neg (by omega)]
      · intro k h32 hlo hhi
        rw [hall k (by omega) (by exact_mod_cast hlo) (by exact_mod_cast hhi), if_pos h32, hread (by omega)]
    · rintro ⟨hhigh, hlow⟩ k h64 hlo hhi
      by_cases h32 : k < 32
      · rw [if_pos h32, hread (by omega), hlow k h32 (by exact_mod_cast hlo) (by exact_mod_cast hhi)]
      · rw [if_neg h32, hhigh k (by omega) h64 (by exact_mod_cast hlo) (by exact_mod_cast hhi)]
  | extract signed pair =>
    obtain rfl : pair = true := hr
    have hu : (i.immEnv .u).toNat < 64 := hu 6 rfl
    have hU : (i.immEnv .U).toNat < 64 := hU 6 rfl
    refine ⟨_, _, hkeep, leaves_extract (.inr rfl) ⟨rfl, .inr (.inr rfl)⟩ rfl hdst ⟨rfl,
      rfl⟩ rfl rfl hreg hu hU signed, ?_, fun hg => absurd rfl hg⟩
    rw [Fits, hl, (@immVal_val i.immEnv .u (by omega)).1]
    simp only [Option.mem_some_iff, forall_eq', SameField, (@immVal_val i.immEnv .u (by omega)).1,
      (@immVal_val i.immEnv .U (by omega)).1]
    refine and_congr (by norm_cast) ⟨fun hall k hk hlo hhi => ?_, fun hall k hk hlo hhi => ?_⟩
    · rw [hall k hk (by exact_mod_cast hlo) (by exact_mod_cast hhi), hread hk]
    · rw [hall k hk (by exact_mod_cast hlo) (by exact_mod_cast hhi), hread hk]
  | _ => cases hr

theorem passed_iff {E : LiftEnv} {imms : ImmLetter → BitVec 32} {u : PhysState} :
    r.Passed E imms u ↔ r.Taken E imms u.vars := by
  refine forall₂_congr fun c _ => exists_congr fun v => and_congr Iff.rfl ?_
  simp only [bodySem, varSem, IlExpr.test, IlExpr.eval_agree (s := u) (l := u.vars) rfl rfl fun _ _ _ _ _ _ => rfl]

theorem fits_of_guard (hg : r.guard ≠ none) (reg : OperandDecl → Val) (imm : ImmLetter → Val) :
    r.Fits reg imm ∧ ∀ l ∈ r.lost i, r.SameField imm (reg rss) (imm l) := by
  cases r with
  | condExtend signed half sense new => exact ⟨trivial, fun l hl => absurd hl (Option.not_mem_none l)⟩
  | _ => exact absurd rfl hg

/-- **The bit-field instructions are exact where their fields suit the generator's masks and no scratch variable stands
for the pair they read, or stands for it with the same field, and nowhere else.** -/
theorem exact_iff (h : r.Of i) (pc : BitVec 64) (n : Nat) (hn : n < instructionsMax) (ctx : PacketContext)
    (u : PhysState) :
    r.Exact i pc n ctx u ↔ r.Fits (regVal (i.liftEnv pc n ctx) u.vars) (immVal i.immEnv) ∧
      ∀ l ∈ r.lost i, r.SameField (immVal i.immEnv) (regVal (i.liftEnv pc n ctx) u.vars rss) (immVal i.immEnv l) := by
  have hn : n < 10 := Nat.lt_trans hn (by decide)
  obtain ⟨q, hq⟩ := @Of.placed r i pc n ctx h
  obtain ⟨v, ok, fine, hgiven⟩ : ∃ v ok fine, Given r i pc n ctx u v ok fine := by
    cases hl : r.lost i with
    | none => exact ⟨u, h.given_kept hq hl u⟩
    | some l => exact ⟨_, h.given_lost hq hl u⟩
  obtain ⟨s', hrun, hres⟩ := hgiven.leaves
  obtain ⟨htaken, huntaken⟩ := h.runs hrun
  have hmirror := (body_mirrors hn u v hgiven.keeps).1
  have hin := inRange_body hn hgiven.keeps
  have hframe := h.frame hq u
  -- the destination holds the same in both runs
  have hdst : ∀ m, ((lift pc i n ctx).body.run bodySem u).get m ((i.liftEnv pc n ctx).operand r.dst).index =
      ((lift pc i n ctx).body.run varSem (u.withPairs v)).get m ((i.liftEnv pc n ctx).operand r.dst) := by
    intro m
    rw [hq.dst]
    exact Bytes.join_congr fun k _ => congrFun (hmirror.temp _ (h.dst_valid hq) rfl) k
  by_cases ht : r.Passed (i.liftEnv pc n ctx) i.immEnv u
  · have ht' : r.Taken (i.liftEnv pc n ctx) i.immEnv (u.withPairs v) := by
      by_cases hg : r.guard = none
      · exact fun c hc => by rw [hg] at hc; cases hc
      · rw [hgiven.guarded hg]
        exact passed_iff.1 ht
    obtain ⟨hrun', hlog⟩ := htaken ht'
    rw [← hgiven.fits]
    constructor
    · intro hex
      have hok := hlog.1 (hin.1 hex.inRange)
      refine ⟨hok, (hres hok).1 ?_⟩
      obtain ⟨y, hy, hget⟩ := hex.result ht
      exact ⟨y, hy, by rw [← hget, hdst, hrun']⟩
    · rintro ⟨hok, hfine⟩
      refine ⟨hin.2 (hlog.2 hok), fun _ => ?_, hframe.1, hframe.2.1, ?_, fun hn => absurd ht hn⟩
      · obtain ⟨y, hy, hget⟩ := (hres hok).2 hfine
        exact ⟨y, hy, by rw [hdst, hrun', hget]⟩
      · rw [hq.dst]
        exact fun t hne => hframe.2.2 t fun he => hne (congrArg LReg.temp he)
  · have hguard : r.guard ≠ none := fun hg => ht fun c hc => by rw [hg] at hc; cases hc
    have hvars := hgiven.guarded hguard
    rw [hvars] at huntaken hin
    obtain ⟨hrun', hlog⟩ := huntaken (fun h => ht (passed_iff.2 h))
    have hsame : (lift pc i n ctx).body.run bodySem u = u := by
      have hown : r.scratch = [] := by
        cases r with
        | condExtend signed half sense new => rfl
        | _ => exact absurd rfl hguard
      rw [hvars, hrun'] at hmirror
      refine State.eq_of_parts hframe.1 (funext fun t => ?_) hframe.2.1
      by_cases he : (Temp.reg 0 q).index = t
      · rw [← he]
        exact hmirror.temp _ (h.dst_valid hq) rfl
      · exact hframe.2.2 t he fun v hv => by rw [hown] at hv; cases hv
    refine iff_of_true ⟨hin.2 hlog, fun h => absurd h ht, hframe.1, hframe.2.1, ?_, fun _ => hsame⟩
      (fits_of_guard hguard _ _)
    intro t _ _
    rw [hsame]

end Instruction

end FieldRow

/-- `Rdd=extractu(Rss,#u6,#U6)` -/
def Opcodes.s2Extractup : Opcode where
  tag := .other 31
  attribs := []
  regs := FieldRow.s2Extractup.regs
  parts := [FieldRow.s2Extractup.behaviour]
  supported := true
  generated _ := by decide
  wellScoped _ := by decide
  hint_not_call := by decide

/-- `R1:0=extractu(R3:2,#20,#8)`, and the same of `R5:4`. -/
def extractPair : Insn := Opcodes.s2Extractup.insn [0, 2] [20, 8] (by decide)
def extractLost : Insn := Opcodes.s2Extractup.insn [0, 4] [20, 8] (by decide)

/-- Every register and every temporary has all its bits set. -/
def setBits : PhysState := ⟨fun _ => 0xff, fun _ _ => 0xff, fun _ => 0⟩

theorem extractPair_of : FieldRow.s2Extractup.Of extractPair where
  supported := rfl
  regs := rfl
  parts := rfl
  imms := ⟨fun b hb => by cases hb; decide, fun b hb => by cases hb; decide⟩

theorem extractLost_of : FieldRow.s2Extractup.Of extractLost where
  supported := rfl
  regs := rfl
  parts := rfl
  imms := ⟨fun b hb => by cases hb; decide, fun b hb => by cases hb; decide⟩

/-- The second takes its field out of the number 20. -/
theorem FieldRow.extractup_twenty : FieldRow.s2Extractup.Exact extractPair 0 0 .empty setBits ∧
    ¬ FieldRow.s2Extractup.Exact extractLost 0 0 .empty setBits := by
  refine ⟨(FieldRow.exact_iff extractPair_of 0 0 (by decide) .empty _).2 ⟨⟨fun h => Bool.noConfusion h, by decide⟩, ?_⟩,
    fun h => ?_⟩
  · intro l hl
    cases hl
  · have hsame := ((FieldRow.exact_iff extractLost_of 0 0 (by decide) .empty _).1 h).2 .u rfl
    exact absurd (hsame 8 (by decide) (by decide) (by decide)) (by decide)

end Hex
