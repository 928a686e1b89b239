import BinjaHexagon.TempClash
/-!
# PacketTemps — what the temporaries and the registers hold inside a packet

A byte of a temporary or of the register file holds what the executed acts last put there.  The temporary of a
destination starts with the register where its first registration asks for it.
-/
namespace Hex

open Bytes (byte)
open Flow (Block)

/-- Byte `a` of the register file is one of the `n` bytes of register `r`. -/
def Covers (n r a : Nat) : Prop := regBase r ≤ a ∧ a < regBase r + n

instance (n r a : Nat) : Decidable (Covers n r a) := inferInstanceAs (Decidable (_ ∧ _))

abbrev DestReg.Covers (d : DestReg) (a : Nat) : Prop := Hex.Covers d.size d.reg a

namespace Insn

variable (i : Insn)

/-- The destinations an instruction declares, in order. -/
def dests : List DestReg :=
  if i.opcode.supported then
    i.places.filterMap fun p => match p.2 with
      | .dest rw n r => some ⟨rw, n, r⟩
      | _ => none
  else []

/-- The registers its behaviour assigns themselves, with the size of the assignment. -/
def directWrites : List (Nat × Nat) :=
  if i.opcode.supported then
    i.semantics.acts.flatMap fun it => match it with
      | .insn x => x.dests.filterMap fun d =>
        match i.resolve 0 d.2 with
        | .hex q => some (d.1, q)
        | .temp _ => none
      | _ => []
  else []

end Insn

/-- The destinations of a packet; the first that names a register decides its size and kind. -/
def packetDests (is : List Insn) : List DestReg := is.flatMap Insn.dests

theorem packetDests_cons (i : Insn) (is : List Insn) : packetDests (i :: is) = i.dests ++ packetDests is :=
    List.flatMap_cons

/-- The register is copied to its temporary when it is registered. -/
def loads (is : List Insn) (r : Nat) : Bool := ((packetDests is).find? (·.reg == r)).any DestReg.rw

/-- The last byte that the executed acts of a log give, each read by `f`. -/
def lastOf (f : PhysState → LiftAct → Option (BitVec 8)) (l : BodyLog) : Option (BitVec 8) :=
  (l.filterMap fun e => e.2.elim (f e.1) fun _ => none).getLast?

/-- What an act, executed in state `s`, puts into byte `k` of the temporary with index `t`. -/
def LiftAct.puts (t k : Nat) (s : PhysState) : LiftAct → Option (BitVec 8)
  | .il (.setRegister n (.temp u) v) => if u.index = t ∧ k < n then some (byte ((v.map LReg.index).eval s) k) else none
  | _ => none

/-- What an act writes to byte `a` of the register file itself. -/
def LiftAct.writes (a : Nat) (s : PhysState) : LiftAct → Option (BitVec 8)
  | .il (.setRegister n (.hex r) v) =>
    if Covers n r a then some (byte ((v.map LReg.index).eval s) (a - regBase r)) else none
  | _ => none

/-- The log of each behaviour of a packet, behind the declarations of its instruction. -/
def bodyLogs : List Lifted → PhysState → List BodyLog
  | [], _ => []
  | l :: ls, s =>
    l.body.log bodySem ((Block.ofList (l.decls.map .il)).run bodySem s) :: bodyLogs ls (l.block.run bodySem s)

section Context

theorem PacketContext.find_addDestReg (ctx : PacketContext) (rw : Bool) (size r q : Nat) :
    (ctx.addDestReg rw size r).1.find q = (ctx.find q).or (if r = q then some ⟨rw, size, r⟩ else none) := by
  unfold addDestReg find
  split
  · rename_i hr
    obtain ⟨d, hd, rfl⟩ := List.mem_map.1 hr
    split
    · rename_i hq
      subst hq
      obtain ⟨e, he⟩ : ∃ e, ctx.regs.find? (·.reg == d.reg) = some e :=
        Option.isSome_iff_exists.1 (List.find?_isSome.2 ⟨d, hd, beq_self_eq_true _⟩)
      rw [he]
      rfl
    · rw [Option.or_none]
  · rw [List.find?_append]
    simp [List.find?_cons]
    split <;> simp_all

theorem find_declared {q : Nat} : ∀ (ps : List (RegName × Place)) (st : LiftState),
    (ps.foldl (fun st p => p.2.declare p.1 st) st).ctx.find q =
      (st.ctx.find q).or ((ps.filterMap fun p => match p.2 with
        | .dest rw n r => some (⟨rw, n, r⟩ : DestReg)
        | _ => none).find? (·.reg == q))
  | [], st => by rw [List.foldl_nil, List.filterMap_nil, List.find?_nil, Option.or_none]
  | (name, p) :: ps, st => by
    rw [List.foldl_cons, find_declared ps]
    cases p with
    | plain r | pair r => rfl
    | dest rw n r =>
      rw [regs_declare_dest, PacketContext.find_addDestReg, List.filterMap_cons, Option.or_assoc]
      dsimp only
      rw [List.find?_cons]
      by_cases h : r = q
      · simp [h]
      · simp [h, beq_eq_false_iff_ne.2 h]

theorem find_lift {pc : BitVec 64} {i : Insn} {n q : Nat} {ctx : PacketContext} :
    (lift pc i n ctx).ctx.find q = (ctx.find q).or (i.dests.find? (·.reg == q)) := by
  unfold Insn.dests
  by_cases hs : i.opcode.supported = true
  · rw [lift_ctx hs, i.declared_eq, find_declared, if_pos hs]
  · rw [lift, if_neg hs, if_neg hs, List.find?_nil, Option.or_none]

theorem find_lastCtx (pc : BitVec 64) (q : Nat) : ∀ (is : List Insn) (n : Nat) (ctx : PacketContext),
    (lastCtx ctx (liftInsns pc n is ctx)).find q = (ctx.find q).or ((packetDests is).find? (·.reg == q))
  | [], _, ctx => by rw [packetDests, List.flatMap_nil, List.find?_nil, Option.or_none]; rfl
  | i :: is, n, ctx => by
    rw [liftInsns, lastCtx, find_lastCtx pc q is, find_lift, packetDests, packetDests, List.flatMap_cons,
      List.find?_append, Option.or_assoc]

end Context

section Body

variable {pc : BitVec 64} {i : Insn} {n : Nat} {ctx : PacketContext}

theorem resolve_hex {x : RegName} {q : Nat} (h : i.resolve n x = .hex q) : i.resolve 0 x = .hex q := by
  cases x with
  | branchrDest | branchTaken => cases h
  | _ => exact h

theorem mem_dests (hs : i.opcode.supported = true) {name : RegName} {rw : Bool} {m r : Nat}
    (h : (name, .dest rw m r) ∈ i.places) : (⟨rw, m, r⟩ : DestReg) ∈ i.dests := by
  rw [Insn.dests, if_pos hs]
  exact List.mem_filterMap.2 ⟨_, h, rfl⟩

/-- A destination is assigned no further than it is declared. -/
theorem size_le_place {name : RegName} {rw : Bool} {m r : Nat} (h : (name, .dest rw m r) ∈ i.places) :
    name.size ≤ m := by
  rcases List.mem_append.1 h with h | h
  · obtain ⟨k, d, -, hp, rfl⟩ := i.mem_operandPlaces h
    unfold Insn.place at hp
    cases hk : d.kind with
    | none => rw [hk] at hp; cases hp
    | some kind =>
      rw [hk] at hp
      cases kind with
      | plain | sourcePair => cases hp
      | dest rw' m' =>
        cases hp
        rcases d with ⟨t, ⟨l, p⟩, new⟩
        cases t <;> cases l <;> cases p <;> cases new <;> cases hk <;> decide
  · obtain ⟨k, -, he⟩ := List.mem_map.1 h
    cases he
    exact Nat.le_refl 1

/-- What a behaviour writes: a register itself, a destination it declares, or a temporary of another kind. -/
structure BodyDest (i : Insn) (e : Nat × LReg Temp) : Prop where
  direct : ∀ q, e.2 = .hex q → (e.1, q) ∈ i.directWrites
  dest : ∀ r, e.2 = .temp (.reg 0 r) → ∃ d ∈ i.dests, d.reg = r ∧ e.1 ≤ d.size
  other : ∀ t, e.2 = .temp t → 100 ≤ t.index ∨ ∃ r, t = .reg 0 r

theorem body_dest {x : LInsn Temp} (hx : .il x ∈ (lift pc i n ctx).body.acts) :
    x.dests.length ≤ 1 ∧ ∀ e ∈ x.dests, BodyDest i e := by
  by_cases hs : i.opcode.supported = true
  · rw [lift, if_pos hs] at hx
    obtain ⟨it, hit, imms, him⟩ := Block.mem_acts_instantiate _ _ _ _ hx
    cases it with
    | branch k e => simp [LiftEnv.item] at him
    | pcalign l => simp [LiftEnv.item] at him
    | insn y =>
      simp only [LiftEnv.item, LiftEnv.insn, i.env_declared ctx, Option.some.injEq, LiftAct.il.injEq] at him
      subst him
      have hsized := i.semantics_sized.1 y hit
      rw [IlInsn.dests_subst, List.length_map]
      refine ⟨hsized.2.2, fun e he => ?_⟩
      obtain ⟨f, hf, rfl⟩ := List.mem_map.1 he
      refine ⟨fun q hq => ?_, fun r hr => ?_, fun t ht => ?_⟩
      · rw [Insn.directWrites, if_pos hs]
        refine List.mem_flatMap.2 ⟨_, hit, List.mem_filterMap.2 ⟨f, hf, ?_⟩⟩
        rw [resolve_hex hq]
      · have hloc := hr
        rw [← i.env_declared .empty] at hloc
        obtain ⟨p, hp, hl⟩ := Insn.place_of_resolve hloc
        cases p with
        | plain q | pair q => cases hl
        | dest rw m q =>
          cases hl
          refine ⟨_, mem_dests hs hp, rfl, ?_⟩
          rw [show f.1 = f.2.size from hsized.2.1 f hf]
          exact size_le_place hp
      · rcases Insn.resolve_cases ht with h | rfl | rfl | h
        · cases hfr : f.2 with
          | eaReg | tmpReg | widthReg | offsetReg | shamtReg =>
            rw [hfr] at h
            cases h
            exact .inl (by decide)
          | _ => rw [hfr] at h; cases h
        · exact .inl (by simp only [Temp.index]; omega)
        · exact .inl (by simp only [Temp.index]; omega)
        · cases t with
          | reg ss r =>
            rcases ss with _ | ss
            · exact .inr ⟨r, rfl⟩
            · refine .inl ?_
              simp only [Temp.index, numHexRegs]
              have : 1 * 100 ≤ (ss + 1) * 100 := Nat.mul_le_mul_right _ (by omega)
              omega
          | _ => exact h.elim
  · rw [lift, if_neg hs] at hx
    have : x = .undefined := by simpa [Block.acts] using hx
    rw [this]
    exact ⟨Nat.zero_le 1, fun e he => absurd he List.not_mem_nil⟩

end Body

section Run

variable {b : LiftBlock} {f : PhysState → LiftAct → Option (BitVec 8)} {l l' : BodyLog} {s s' : PhysState} {e : Step}

theorem lastOf_append (f : PhysState → LiftAct → Option (BitVec 8)) (l m : BodyLog) :
    lastOf f (l ++ m) = (lastOf f m).or (lastOf f l) := by
  rw [lastOf, List.filterMap_append, List.getLast?_append, lastOf, lastOf]

theorem lastOf_act (f : PhysState → LiftAct → Option (BitVec 8)) (s : PhysState) (x : LiftAct) :
    lastOf f [(s, .inl x)] = f s x := by
  rw [lastOf, List.filterMap_cons, List.filterMap_nil, Sum.elim_inl]
  cases f s x <;> rfl

theorem lastOf_test (f : PhysState → LiftAct → Option (BitVec 8)) (s : PhysState) (c : LExpr Temp) :
    lastOf f [(s, .inr c)] = none := rfl

theorem temp_act {x : LInsn Temp} (hx : x.dests.length ≤ 1) (t k : Nat) (s : PhysState) :
    (bodySem.exec (.il x) s).temp t k = ((LiftAct.il x).puts t k s).getD (s.temp t k) := by
  cases x with
  | setRegister n r v =>
    cases r with
    | hex r => rfl
    | temp u =>
      simp only [bodySem, IlInsn.map, IlInsn.subst, IlInsn.exec, LReg.map, State.set, State.setTemp, LiftAct.puts]
      by_cases h : u.index = t ∧ k < n
      · rw [if_pos h, if_pos ⟨h.1.symm, h.2⟩]
        rfl
      · rw [if_neg h, if_neg fun h' => h ⟨h'.1.symm, h'.2⟩]
        rfl
  | setRegisterSplit n hi lo v => exact absurd hx (Nat.not_succ_le_self 1)
  | store n a v => rfl
  | systemCall | breakpoint | undefined => rfl

theorem reg_act {x : LInsn Temp} (hx : x.dests.length ≤ 1) (a : Nat) (s : PhysState) :
    (bodySem.exec (.il x) s).reg a = ((LiftAct.il x).writes a s).getD (s.reg a) := by
  cases x with
  | setRegister n r v =>
    cases r with
    | hex r =>
      simp only [bodySem, IlInsn.map, IlInsn.subst, IlInsn.exec, LReg.map, State.set, State.setReg, LiftAct.writes]
      by_cases h : Covers n r a
      · rw [if_pos h]
        exact if_pos h
      · rw [if_neg h]
        exact if_neg h
    | temp u => rfl
  | setRegisterSplit n hi lo v => exact absurd hx (Nat.not_succ_le_self 1)
  | store n a v => rfl
  | systemCall | breakpoint | undefined => rfl

/-- Every instruction of the block writes one place at most. -/
def SingleDest (b : LiftBlock) : Prop := ∀ x, .il x ∈ b.acts → x.dests.length ≤ 1

/-- What holds of every log and the state behind it: the state in the middle of a run included. -/
theorem log_invariant {P : BodyLog → PhysState → Prop}
    (hact : ∀ a ∈ b.acts, ∀ l s, P l s → P (l ++ [(s, .inl a)]) (bodySem.exec a s))
    (htest : ∀ c l s, P l s → P (l ++ [(s, .inr c)]) s) (hs : P [] s) :
    P (b.log bodySem s) (b.run bodySem s) ∧ ∀ l s' e l', b.log bodySem s = l ++ (s', e) :: l' → P l s' := by
  have hsplit {l : BodyLog} {s : PhysState} {x : PhysState × (LiftAct ⊕ LExpr Temp)}
      (h : ∀ l₁ s₁ e l₂, l = l₁ ++ (s₁, e) :: l₂ → P l₁ s₁) (hl : P l s) (hx : x.1 = s) :
      ∀ l₁ s₁ e l₂, l ++ [x] = l₁ ++ (s₁, e) :: l₂ → P l₁ s₁ := by
    intro l₁ s₁ e l₂ heq
    rcases List.eq_nil_or_concat l₂ with rfl | ⟨l₃, y, rfl⟩
    · obtain ⟨rfl, hlast⟩ := List.append_inj' heq rfl
      cases List.singleton_inj.1 hlast
      rw [← hx] at hl
      exact hl
    · rw [List.concat_eq_append, ← List.cons_append, ← List.append_assoc] at heq
      exact h l₁ s₁ e l₃ (List.append_inj' heq rfl).1
  have := Block.run_log_induction bodySem
    (I := fun l s => P l s ∧ ∀ l₁ s₁ e l₂, l = l₁ ++ (s₁, e) :: l₂ → P l₁ s₁) b
    (fun a ha l s h => ⟨hact a ha l s h.1, hsplit h.2 h.1 rfl⟩) (fun c l s h => ⟨htest c l s h.1, hsplit h.2 h.1 rfl⟩)
    [] s ⟨hs, fun l₁ s₁ e l₂ h => by cases l₁ <;> cases h⟩
  simpa only [List.nil_append] using this

/-- **A temporary holds what was last put there.** -/
theorem temp_log (hb : SingleDest b) (t k : Nat) (s : PhysState) :
    (b.run bodySem s).temp t k = (lastOf (LiftAct.puts t k) (b.log bodySem s)).getD (s.temp t k) ∧
      ∀ l s' e l', b.log bodySem s = l ++ (s', e) :: l' →
          s'.temp t k = (lastOf (LiftAct.puts t k) l).getD (s.temp t k) := by
  refine log_invariant (P := fun l s' => s'.temp t k = (lastOf (LiftAct.puts t k) l).getD (s.temp t k))
    (fun a ha l s' h => ?_) (fun c l s' h => ?_) rfl
  · rw [lastOf_append, lastOf_act]
    cases a with
    | branch n d => exact h
    | il x =>
      rw [temp_act (hb x ha), h]
      cases (LiftAct.il x).puts t k s' <;> rfl
  · rw [lastOf_append, lastOf_test, Option.none_or, h]

/-- **A register byte is what was last written there.** -/
theorem reg_log (hb : SingleDest b) (a : Nat) (s : PhysState) :
    (b.run bodySem s).reg a = (lastOf (LiftAct.writes a) (b.log bodySem s)).getD (s.reg a) ∧
      ∀ l s' e l', b.log bodySem s = l ++ (s', e) :: l' → s'.reg a = (lastOf (LiftAct.writes a) l).getD (s.reg a) := by
  refine log_invariant (P := fun l s' => s'.reg a = (lastOf (LiftAct.writes a) l).getD (s.reg a))
    (fun x hx l s' h => ?_) (fun c l s' h => ?_) rfl
  · rw [lastOf_append, lastOf_act]
    cases x with
    | branch n d => exact h
    | il x =>
      rw [reg_act (hb x hx), h]
      cases (LiftAct.il x).writes a s' <;> rfl
  · rw [lastOf_append, lastOf_test, Option.none_or, h]

/-- Where no act gives anything, the log gives nothing, and no beginning of it does. -/
theorem lastOf_log_eq_none (h : ∀ a ∈ b.acts, ∀ s, f s a = none) (s : PhysState) :
    lastOf f (b.log bodySem s) = none ∧ ∀ l s' e l', b.log bodySem s = l ++ (s', e) :: l' → lastOf f l = none := by
  refine log_invariant (P := fun l _ => lastOf f l = none) (fun a ha l s' hl => ?_) (fun c l s' hl => ?_) rfl
  · rw [lastOf_append, lastOf_act, h a ha, Option.none_or, hl]
  · rw [lastOf_append, lastOf_test, Option.none_or, hl]

theorem lastOf_eq_none (h : ∀ a ∈ b.acts, ∀ s, f s a = none) (s : PhysState) : lastOf f (b.log bodySem s) = none :=
  (lastOf_log_eq_none h s).1

end Run

section Decls

variable {pc : BitVec 64} {i : Insn} {n r k : Nat} {ctx : PacketContext}

/-- What the declarations add, in order. -/
def declCode : List (RegName × Place) → PacketContext → List (LInsn Temp)
  | [], _ => []
  | (_, .plain _) :: ps, ctx => declCode ps ctx
  | (_, .pair q) :: ps, ctx => copyToTemp 8 q 1 :: declCode ps ctx
  | (_, .dest rw m q) :: ps, ctx => (ctx.addDestReg rw m q).2 ++ declCode ps (ctx.addDestReg rw m q).1

theorem code_foldl : ∀ (ps : List (RegName × Place)) (st : LiftState),
    (ps.foldl (fun st p => p.2.declare p.1 st) st).code = st.code ++ declCode ps st.ctx
  | [], st => (List.append_nil _).symm
  | (name, p) :: ps, st => by
    rw [List.foldl_cons, code_foldl ps]
    cases p with
    | plain q => rfl
    | pair q => exact List.append_assoc ..
    | dest rw m q => exact List.append_assoc ..

theorem temp_copyToTemp_ne {size q ss : Nat} (hf : Fits size q) (hne : r ≠ (Temp.reg ss q).index) (s : PhysState) :
    (((copyToTemp size q ss).map LReg.index).exec s).temp r = s.temp r := by
  rw [exec_copyToTemp hf]
  exact State.setTemp_temp_ne _ _ _ hne

theorem reg_copyToTemp {size q ss : Nat} (hf : Fits size q) (s : PhysState) :
    (((copyToTemp size q ss).map LReg.index).exec s).reg = s.reg := by
  rw [exec_copyToTemp hf]
  rfl

/-- **A destination is loaded where its first registration asks for it.** -/
theorem temp_declCode (hr : r < numHexRegs) : ∀ (ps : List (RegName × Place)) (ctx : PacketContext) (s : PhysState),
    (∀ p ∈ ps, match p.2 with
      | .plain _ => True
      | .pair q => Fits 8 q
      | .dest _ m q => Fits m q) →
    (execAll ((declCode ps ctx).map (IlInsn.map LReg.index)) s).temp r k =
      if r ∉ ctx.regs.map DestReg.reg ∧ ((ps.filterMap fun p => match p.2 with
          | .dest rw m q => some (⟨rw, m, q⟩ : DestReg)
          | _ => none).find? (·.reg == r)).any (fun d => d.rw && decide (k < d.size)) = true
      then s.reg (regBase r + k) else s.temp r k
  | [], ctx, s, _ => by simp [declCode, execAll]
  | (name, p) :: ps, ctx, s, hfit => by
    have hps := fun p hp => hfit p (List.mem_cons_of_mem _ hp)
    cases p with
    | plain q => exact temp_declCode hr ps ctx s hps
    | pair q =>
      have hf : Fits 8 q := hfit (name, .pair q) List.mem_cons_self
      have hne : r ≠ (Temp.reg 1 q).index := by
        intro h
        rw [h] at hr
        simp only [Temp.index, numHexRegs] at hr
        omega
      rw [declCode, List.map_cons, execAll, List.foldl_cons, ← execAll, temp_declCode hr ps ctx _ hps,
        reg_copyToTemp hf, temp_copyToTemp_ne hf hne]
      rfl
    | dest rw m q =>
      have hf : Fits m q := hfit (name, .dest rw m q) List.mem_cons_self
      have hstate : ∀ s : PhysState,
          execAll ((declCode ((name, .dest rw m q) :: ps) ctx).map (IlInsn.map LReg.index)) s =
            execAll ((declCode ps (ctx.addDestReg rw m q).1).map (IlInsn.map LReg.index))
              (execAll ((ctx.addDestReg rw m q).2.map (IlInsn.map LReg.index)) s) := fun s => by
        rw [declCode, List.map_append, execAll, List.foldl_append, ← execAll, ← execAll]
      rw [hstate, temp_declCode hr ps _ _ hps, List.filterMap_cons]
      dsimp only
      rw [List.find?_cons]
      by_cases hin : q ∈ ctx.regs.map DestReg.reg
      · have hadd : ctx.addDestReg rw m q = (ctx, []) := dif_pos hin
        rw [hadd]
        by_cases hq : q = r
        · subst hq
          simp [hin, execAll]
        · rw [show ((⟨rw, m, q⟩ : DestReg).reg == r) = false from beq_eq_false_iff_ne.2 hq]
          rfl
      · have hregs : (ctx.addDestReg rw m q).1.regs = ctx.regs ++ [⟨rw, m, q⟩] := by
          rw [PacketContext.addDestReg, dif_neg hin]
        have hcode : (ctx.addDestReg rw m q).2 = if rw then [copyToTemp m q 0] else [] := by
          rw [PacketContext.addDestReg, dif_neg hin]
        have hreg : (execAll ((ctx.addDestReg rw m q).2.map (IlInsn.map LReg.index)) s).reg = s.reg := by
          rw [hcode]
          cases rw with
          | true => exact reg_copyToTemp hf s
          | false => rfl
        rw [hregs, hreg, List.map_append]
        by_cases hq : q = r
        · subst hq
          rw [if_neg fun h => h.1 (List.mem_append_right _ (List.mem_singleton_self _)),
            show ((⟨rw, m, q⟩ : DestReg).reg == q) = true from beq_self_eq_true q]
          cases rw with
          | true =>
            rw [show (ctx.addDestReg true m q).2 = [copyToTemp m q 0] from hcode]
            by_cases hk : k < m
            · rw [if_pos ⟨hin, by simpa using hk⟩]
              have := temp_copyToTemp hf 0 s hk
              rwa [index_reg_zero] at this
            · rw [if_neg fun h => hk (by simpa using h.2)]
              simp only [List.map_cons, List.map_nil, execAll, List.foldl_cons, List.foldl_nil, exec_copyToTemp hf,
                State.setTemp, hk, and_false, if_false]
          | false =>
            rw [show (ctx.addDestReg false m q).2 = [] from hcode, if_neg fun h => absurd h.2 (by simp)]
            rfl
        · have htemp : (execAll ((ctx.addDestReg rw m q).2.map (IlInsn.map LReg.index)) s).temp r = s.temp r := by
            rw [hcode]
            cases rw with
            | true => exact temp_copyToTemp_ne hf (by rw [index_reg_zero]; exact Ne.symm hq) s
            | false => rfl
          rw [htemp, show ((⟨rw, m, q⟩ : DestReg).reg == r) = false from beq_eq_false_iff_ne.2 hq]
          have hmem : r ∉ ctx.regs.map DestReg.reg ++ [⟨rw, m, q⟩].map DestReg.reg ↔ r ∉ ctx.regs.map DestReg.reg := by
            simp [Ne.symm hq]
          simp only [hmem]

theorem PacketContext.find_eq_none {q : Nat} : ctx.find q = none ↔ q ∉ ctx.regs.map DestReg.reg := by
  rw [find, List.find?_eq_none]
  simp only [List.mem_map, not_exists, not_and, beq_iff_eq]

theorem run_decls (l : List (LInsn Temp)) (s : PhysState) :
    (Block.ofList (l.map LiftAct.il) : LiftBlock).run bodySem s = execAll (l.map (IlInsn.map LReg.index)) s := by
  rw [Block.run_ofList, List.foldl_map, execAll, List.foldl_map]
  rfl

theorem fits_places : ∀ p ∈ i.places, match p.2 with
    | .plain _ => True
    | .pair q => Fits 8 q
    | .dest _ m q => Fits m q := by
  rintro ⟨name, p⟩ hp
  cases p with
  | plain q => trivial
  | dest rw m q => exact (Insn.good_of_place hp).fits
  | pair q =>
    rcases List.mem_append.1 hp with hp | hp
    · obtain ⟨j, d, hd, hplace, -⟩ := i.mem_operandPlaces hp
      have hlt := i.regno_lt j d hd
      refine ⟨Nat.le_refl 8, fun _ => ?_⟩
      rw [Nat.zero_add] at hplace
      unfold Insn.place at hplace
      cases hk : d.kind with
      | none => rw [hk] at hplace; cases hplace
      | some kind =>
        rw [hk] at hplace
        cases kind with
        | plain | dest rw m => cases hplace
        | sourcePair =>
          cases hplace
          rcases d with ⟨t, ⟨l, p⟩, new⟩
          simp only [OperandDecl.limit] at hlt
          simp only [Insn.reg, mapRegNum, hexRegR00, hexRegC00, hexRegP0]
          cases t with
          | P => cases l <;> cases p <;> cases new <;> cases hk
          | R | N | C =>
            rw [if_neg (by decide)] at hlt
            dsimp only
            omega
    · obtain ⟨j, -, he⟩ := List.mem_map.1 hp
      cases he

/-- What the declarations of an instruction leave in the temporary of a destination. -/
theorem temp_decls (hr : r < numHexRegs) (s : PhysState) :
    ((Block.ofList ((lift pc i n ctx).decls.map .il)).run bodySem s).temp r k =
      if ctx.find r = none ∧ (i.dests.find? (·.reg == r)).any (fun d => d.rw && decide (k < d.size)) = true
      then s.reg (regBase r + k) else s.temp r k := by
  rw [run_decls]
  by_cases hs : i.opcode.supported = true
  · rw [lift, if_pos hs, i.declared_eq]
    dsimp only
    rw [code_foldl, List.nil_append, temp_declCode hr _ _ _ fits_places, Insn.dests, if_pos hs]
    simp only [PacketContext.find_eq_none]
  · rw [lift, if_neg hs, Insn.dests, if_neg hs, if_neg fun h => absurd h.2 (by simp)]
    rfl

end Decls

section Packet

variable {pc : BitVec 64} {i : Insn} {n r k : Nat} {ctx : PacketContext}

theorem single_body : SingleDest (lift pc i n ctx).body := fun _ hx => (body_dest hx).1

theorem reg_run_decls (s : PhysState) :
    ((Block.ofList ((lift pc i n ctx).decls.map .il)).run bodySem s).reg = s.reg := by
  rw [run_decls, reg_decls]

/-- Registers that nothing writes directly keep their packet-entry values in the body of an instruction. -/
theorem writes_eq_none {a : Nat} (hi : ∀ q ∈ i.directWrites, ¬ Covers q.1 q.2 a) {x : LiftAct}
    (hx : x ∈ (lift pc i n ctx).body.acts) (s : PhysState) : x.writes a s = none := by
  cases x with
  | branch m d => rfl
  | il x =>
    obtain ⟨-, hdest⟩ := body_dest hx
    cases x with
    | setRegister m l v =>
      cases l with
      | hex q => exact if_neg (hi _ ((hdest (m, .hex q) List.mem_cons_self).direct q rfl))
      | temp t => rfl
    | _ => rfl

theorem reg_lift_of_direct {a : Nat} (hi : ∀ q ∈ i.directWrites, ¬ Covers q.1 q.2 a) (s : PhysState) :
    ((lift pc i n ctx).block.run bodySem s).reg a = s.reg a := by
  rw [Lifted.block, Block.run_append, (reg_log single_body a _).1, lastOf_eq_none fun x hx s => writes_eq_none hi hx s,
    Option.getD_none, reg_run_decls]

theorem reg_packetBody_of_direct {a : Nat} : ∀ (is : List Insn) (n : Nat) (ctx : PacketContext) (s : PhysState),
    (∀ i ∈ is, ∀ q ∈ i.directWrites, ¬ Covers q.1 q.2 a) →
      ((packetBody (liftInsns pc n is ctx)).run bodySem s).reg a = s.reg a
  | [], _, _, _, _ => rfl
  | i :: is, n, ctx, s, h => by
    rw [liftInsns, run_packetBody_cons, reg_packetBody_of_direct is _ _ _ fun j hj => h j (List.mem_cons_of_mem _ hj),
      reg_lift_of_direct (h i List.mem_cons_self)]

/-- What an instruction does not declare it does not assign. -/
theorem puts_eq_none (hr : r < numHexRegs) (hno : ∀ e ∈ i.dests, e.reg ≠ r) {x : LiftAct}
    (hx : x ∈ (lift pc i n ctx).body.acts) (s : PhysState) : x.puts r k s = none := by
  cases x with
  | branch m d => rfl
  | il x =>
    obtain ⟨-, hdest⟩ := body_dest hx
    cases x with
    | setRegister m l v =>
      cases l with
      | hex q => rfl
      | temp t =>
        have hd := hdest (m, .temp t) List.mem_cons_self
        refine if_neg fun h => ?_
        rcases hd.other t rfl with ht | ⟨q, rfl⟩
        · rw [h.1] at ht
          exact absurd hr (Nat.not_lt.2 ht)
        · obtain ⟨e, he, heq, -⟩ := hd.dest q rfl
          rw [index_reg_zero] at h
          exact hno e he (heq.trans h.1)
    | _ => rfl

/-- The temporary of a destination behind an instruction. -/
theorem temp_lift (hr : r < numHexRegs) (s : PhysState) :
    ((lift pc i n ctx).block.run bodySem s).temp r k =
      (lastOf (LiftAct.puts r k) ((lift pc i n ctx).body.log bodySem
          ((Block.ofList ((lift pc i n ctx).decls.map .il)).run bodySem s))).getD
        (if ctx.find r = none ∧ (i.dests.find? (·.reg == r)).any (fun d => d.rw && decide (k < d.size)) = true
          then s.reg (regBase r + k) else s.temp r k) := by
  rw [Lifted.block, Block.run_append, (temp_log single_body r k _).1, temp_decls hr]

/-- The byte that the first registration of `r` loads, where it loads one. -/
def firstLoad (pc : BitVec 64) (r k : Nat) : List Insn → Nat → PacketContext → PhysState → Option (BitVec 8)
  | [], _, _, _ => none
  | i :: is, n, ctx, s =>
    match i.dests.find? (·.reg == r) with
    | some d => if d.rw && decide (k < d.size) then some (s.reg (regBase r + k)) else none
    | none => firstLoad pc r k is (n + 1) (lift pc i n ctx).ctx ((lift pc i n ctx).block.run bodySem s)

/-- **The temporary of a destination behind the instructions of a packet**: the last executed assignment, else what it
was loaded with, else what it held at entry. -/
theorem temp_packet (hr : r < numHexRegs) : ∀ (is : List Insn) (n : Nat) (ctx : PacketContext) (s : PhysState),
    ((packetBody (liftInsns pc n is ctx)).run bodySem s).temp r k =
      (((bodyLogs (liftInsns pc n is ctx) s).filterMap (lastOf (LiftAct.puts r k))).getLast?).getD
        ((if ctx.find r = none then firstLoad pc r k is n ctx s else none).getD (s.temp r k))
  | [], n, ctx, s => by
    rw [firstLoad, ite_self]
    rfl
  | i :: is, n, ctx, s => by
    have ih := temp_packet hr is (n + 1) (lift pc i n ctx).ctx ((lift pc i n ctx).block.run bodySem s)
    rw [liftInsns, run_packetBody_cons, ih, temp_lift hr, find_lift, bodyLogs, List.filterMap_cons, firstLoad]
    generalize hfirst : i.dests.find? (·.reg == r) = first
    generalize (bodyLogs (liftInsns pc (n + 1) is (lift pc i n ctx).ctx)
      ((lift pc i n ctx).block.run bodySem s)).filterMap (lastOf (LiftAct.puts r k)) = later
    generalize hlast : lastOf (LiftAct.puts r k) ((lift pc i n ctx).body.log bodySem
      ((Block.ofList ((lift pc i n ctx).decls.map .il)).run bodySem s)) = last
    have habsent : first = none → last = none := by
      intro hf
      rw [← hlast]
      refine lastOf_eq_none (fun x hx s => puts_eq_none hr (fun e he hreg => ?_) hx s) _
      rw [hf] at hfirst
      exact absurd (beq_iff_eq.2 hreg) (List.find?_eq_none.1 hfirst e he)
    cases first with
    | none =>
      have hno : ¬ (ctx.find r = none ∧ (none : Option DestReg).any (fun d => d.rw && decide (k < d.size)) = true) :=
        fun h => Bool.false_ne_true h.2
      rw [habsent rfl, Option.getD_none, Option.or_none, if_neg hno]
    | some e =>
      -- registered here at the latest: nothing is loaded further on
      have hsome : (ctx.find r).or (some e) ≠ none := by
        cases ctx.find r <;> exact Option.some_ne_none _
      rw [if_neg hsome, Option.getD_none]
      have hload : (if ctx.find r = none ∧ (some e).any (fun d => d.rw && decide (k < d.size)) = true
          then s.reg (regBase r + k) else s.temp r k) =
          (if ctx.find r = none then if (e.rw && decide (k < e.size)) = true then some (s.reg (regBase r + k)) else none
            else none).getD (s.temp r k) := by
        rw [Option.any_some, ite_and]
        split
        · split <;> rfl
        · rfl
      rw [hload]
      cases last with
      | none => rfl
      | some v =>
        rw [List.getLast?_cons]
        rfl

/-- What the first registration loads is the packet-entry value, where nothing writes the register directly. -/
theorem firstLoad_eq : ∀ (is : List Insn) (n : Nat) (ctx : PacketContext) (s : PhysState),
    (∀ i ∈ is, ∀ q ∈ i.directWrites, ¬ Covers q.1 q.2 (regBase r + k)) → firstLoad pc r k is n ctx s =
      if ((packetDests is).find? (·.reg == r)).any (fun d => d.rw && decide (k < d.size)) = true
        then some (s.reg (regBase r + k)) else none
  | [], _, _, _, _ => rfl
  | i :: is, n, ctx, s, h => by
    have ih := firstLoad_eq is (n + 1) (lift pc i n ctx).ctx ((lift pc i n ctx).block.run bodySem s)
      fun j hj => h j (List.mem_cons_of_mem _ hj)
    rw [reg_lift_of_direct (h i List.mem_cons_self)] at ih
    rw [firstLoad, ih, packetDests_cons, List.find?_append]
    cases i.dests.find? (·.reg == r) with
    | none => rw [Option.none_or]
    | some d => rw [Option.some_or, Option.any_some]

end Packet
end Hex
