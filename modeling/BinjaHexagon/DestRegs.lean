import BinjaHexagon.Declared
import BinjaHexagon.RegFrame
/-!
# DestRegs — where the destinations of a packet come from

A destination is a word, a pair or a predicate that some instruction declared; an instruction that names the temporary
of a destination has it registered.
-/
namespace Hex

open Flow (Block)

/-- A register of four bytes, a pair, or a predicate. -/
def DestReg.Good (d : DestReg) : Prop :=
  d.reg < 64 ∧ (d.size = 4 ∨ d.size = 8) ∨ (hexRegP0 ≤ d.reg ∧ d.reg ≤ hexRegP3) ∧ d.size = 1

theorem DestReg.Good.fits {d : DestReg} (h : d.Good) : Fits d.size d.reg := by
  have hp0 : hexRegP0 = 90 := rfl
  rcases h with ⟨hr, hs | hs⟩ | ⟨-, hs⟩
  · exact ⟨by omega, fun h8 => by omega⟩
  · exact ⟨by omega, fun _ => by omega⟩
  · exact ⟨by omega, fun h8 => by omega⟩

theorem DestReg.Good.pos {d : DestReg} (h : d.Good) : 0 < d.size := by
  rcases h with ⟨-, hs | hs⟩ | ⟨-, hs⟩ <;> omega

theorem DestReg.Good.reg_lt {d : DestReg} (h : d.Good) : d.reg < numHexRegs := by
  rcases h with ⟨hr, -⟩ | ⟨⟨-, hr⟩, -⟩
  · exact Nat.lt_of_lt_of_le hr (by decide)
  · exact Nat.lt_of_le_of_lt hr (by decide)

theorem DestReg.Good.not_spares {d : DestReg} (h : d.Good) : ¬ d.copyFromTemp.Spares [regBase d.reg] := by
  intro hsp
  unfold DestReg.copyFromTemp at hsp
  split at hsp
  · exact hsp (4, .hex d.reg) (by simp [IlInsn.dests]) d.reg rfl _ List.mem_cons_self ⟨Nat.le_refl _, by omega⟩
  · have hpos := h.pos
    exact hsp (d.size, .hex d.reg) (by simp [IlInsn.dests]) d.reg rfl _ List.mem_cons_self ⟨Nat.le_refl _, by omega⟩

theorem size_of_kind {d : OperandDecl} {rw : Bool} {size : Nat} (h : d.kind = some (.dest rw size)) :
    if d.regtype = .P then size = 1 else size = 4 ∨ size = 8 := by
  rcases d with ⟨t, ⟨l, p⟩, new⟩
  cases t <;> cases l <;> cases p <;> cases new <;> cases h <;> decide

namespace Insn

variable {i : Insn}

theorem good_of_place {q : RegName} {rw : Bool} {size r : Nat} (h : (q, .dest rw size r) ∈ i.places) :
    DestReg.Good ⟨rw, size, r⟩ := by
  rcases List.mem_append.1 h with h | h
  · obtain ⟨k, d, hd, hp, -⟩ := i.mem_operandPlaces h
    have hlt := i.regno_lt k d hd
    rw [Nat.zero_add] at hp
    unfold place at hp
    cases hk : d.kind with
    | none => rw [hk] at hp; cases hp
    | some kind =>
      rw [hk] at hp
      cases kind with
      | plain | sourcePair => cases hp
      | dest rw' size' =>
        cases hp
        have hsize := size_of_kind hk
        simp only [OperandDecl.limit] at hlt
        unfold DestReg.Good mapRegNum
        simp only [hexRegP0, hexRegP3, hexRegR00, hexRegC00, reg]
        cases ht : d.regtype with
        | P =>
          rw [ht, if_pos rfl] at hlt hsize
          exact .inr ⟨⟨by dsimp only; omega, by dsimp only; omega⟩, hsize⟩
        | R | N | C =>
          rw [ht, if_neg (by decide)] at hlt hsize
          exact .inl ⟨by dsimp only; omega, hsize⟩
  · obtain ⟨n, hn, he⟩ := List.mem_map.1 h
    cases he
    have hlt := fixedPreds_lt hn
    refine .inr ⟨?_, rfl⟩
    simp only [mapRegNum, hexRegP0, hexRegP3]
    omega

end Insn

namespace PacketContext

theorem mem_addDestReg {ctx : PacketContext} {rw : Bool} {size r : Nat} {d : DestReg} :
    d ∈ (ctx.addDestReg rw size r).1.regs ↔
      d ∈ ctx.regs ∨ r ∉ ctx.regs.map DestReg.reg ∧ d = ⟨rw, size, r⟩ := by
  unfold addDestReg
  split
  · simp_all
  · simp_all

end PacketContext

section Declared

variable {ps : List (RegName × Place)} {st : LiftState}

theorem regs_declare_dest {name : RegName} {rw : Bool} {size r : Nat} :
    (Place.declare name st (.dest rw size r)).ctx = (st.ctx.addDestReg rw size r).1 := rfl

/-- Whatever was registered before stays; what is new is a place of the list. -/
theorem mem_regs_foldl : ∀ {ps : List (RegName × Place)} {st : LiftState} {d : DestReg},
    (d ∈ st.ctx.regs → d ∈ (ps.foldl (fun st p => p.2.declare p.1 st) st).ctx.regs) ∧
    (d ∈ (ps.foldl (fun st p => p.2.declare p.1 st) st).ctx.regs →
      d ∈ st.ctx.regs ∨ ∃ name, (name, .dest d.rw d.size d.reg) ∈ ps)
  | [], _, _ => ⟨id, .inl⟩
  | (name, p) :: ps, st, d => by
    obtain ⟨ih1, ih2⟩ := @mem_regs_foldl ps (p.declare name st) d
    have hlater : (∃ name, (name, Place.dest d.rw d.size d.reg) ∈ ps) →
        ∃ name', (name', Place.dest d.rw d.size d.reg) ∈ (name, p) :: ps := fun ⟨n, hn⟩ =>
          ⟨n, List.mem_cons_of_mem _ hn⟩
    rw [List.foldl_cons]
    cases p with
    | plain r | pair r => exact ⟨ih1, fun h => (ih2 h).imp id hlater⟩
    | dest rw size r =>
      rw [regs_declare_dest, PacketContext.mem_addDestReg] at ih1 ih2
      refine ⟨fun h => ih1 (.inl h), fun h => ?_⟩
      rcases ih2 h with (h | ⟨-, rfl⟩) | h
      · exact .inl h
      · exact .inr ⟨name, List.mem_cons_self⟩
      · exact .inr (hlater h)

theorem registered_foldl : ∀ {ps : List (RegName × Place)} {st : LiftState} {name : RegName} {rw : Bool} {size r : Nat},
    (name, .dest rw size r) ∈ ps →
      r ∈ (ps.foldl (fun st p => p.2.declare p.1 st) st).ctx.regs.map DestReg.reg
  | [], _, _, _, _, _, h => absurd h List.not_mem_nil
  | p :: ps, st, name, rw, size, r, h => by
    rw [List.foldl_cons]
    rcases List.mem_cons.1 h with rfl | h
    · have hreg : r ∈ (st.ctx.addDestReg rw size r).1.regs.map DestReg.reg := by
        unfold PacketContext.addDestReg
        split
        · assumption
        · simp
      obtain ⟨d, hd, hdr⟩ := List.mem_map.1 hreg
      exact List.mem_map.2 ⟨d, mem_regs_foldl.1 hd, hdr⟩
    · exact registered_foldl h

theorem mem_code_foldl : ∀ {ps : List (RegName × Place)} {st : LiftState} {c : LInsn Temp},
    c ∈ (ps.foldl (fun st p => p.2.declare p.1 st) st).code → c ∈ st.code ∨
      ∃ p ∈ ps, ∀ e ∈ c.dests, e.2 = p.2.loc
  | [], _, _, h => .inl h
  | (name, p) :: ps, st, c, h => by
    rw [List.foldl_cons] at h
    have hcopy : ∀ {size r ss : Nat} {e : Nat × LReg Temp}, e ∈ (copyToTemp size r ss).dests →
        e.2 = .temp (.reg ss r) := fun he => by
      rw [dests_copyToTemp, List.mem_singleton] at he
      rw [he]
    rcases mem_code_foldl h with h | ⟨q, hq, hl⟩
    · cases p with
      | plain r => exact .inl h
      | pair r =>
        rcases List.mem_append.1 h with h | h
        · exact .inl h
        · obtain rfl := List.mem_singleton.1 h
          exact .inr ⟨_, List.mem_cons_self, fun e he => hcopy he⟩
      | dest rw size r =>
        rcases List.mem_append.1 h with h | h
        · exact .inl h
        · obtain rfl := mem_addDestReg_code h
          exact .inr ⟨_, List.mem_cons_self, fun e he => hcopy he⟩
    · exact .inr ⟨q, List.mem_cons_of_mem _ hq, hl⟩

end Declared

section Lift

variable {pc : BitVec 64} {i : Insn} {n : Nat} {ctx : PacketContext} {d : DestReg}

theorem lift_ctx (hs : i.opcode.supported = true) : (lift pc i n ctx).ctx = (i.declared ctx).ctx := by
  rw [lift, if_pos hs]

theorem mem_lift_ctx_of (h : d ∈ ctx.regs) : d ∈ (lift pc i n ctx).ctx.regs := by
  by_cases hs : i.opcode.supported = true
  · rw [lift_ctx hs, i.declared_eq]
    exact mem_regs_foldl.1 h
  · rw [lift, if_neg hs]
    exact h

theorem mem_lift_ctx (h : d ∈ (lift pc i n ctx).ctx.regs) :
    d ∈ ctx.regs ∨ ∃ name, (name, .dest d.rw d.size d.reg) ∈ i.places := by
  by_cases hs : i.opcode.supported = true
  · rw [lift_ctx hs, i.declared_eq] at h
    exact mem_regs_foldl.2 h
  · rw [lift, if_neg hs] at h
    exact .inl h

theorem good_lift (h : ∀ d ∈ ctx.regs, d.Good) (hd : d ∈ (lift pc i n ctx).ctx.regs) : d.Good := by
  rcases mem_lift_ctx hd with hd | ⟨name, hd⟩
  · exact h d hd
  · exact Insn.good_of_place hd

theorem good_lastCtx : ∀ (is : List Insn) (n : Nat) {ctx : PacketContext}, (∀ d ∈ ctx.regs, d.Good) →
    ∀ d ∈ (lastCtx ctx (liftInsns pc n is ctx)).regs, d.Good
  | [], _, _, h => h
  | _ :: is, n, _, h => good_lastCtx is (n + 1) fun _ hd => good_lift h hd

/-- **A temporary of a destination that an instruction writes was declared by it.** -/
theorem place_of_write {x : LInsn Temp} (hx : .il x ∈ (lift pc i n ctx).block.acts) {e : Nat × LReg Temp}
    (he : e ∈ x.dests) {r : Nat} (hr : e.2 = .temp (.reg 0 r)) :
    ∃ name rw size, (name, Place.dest rw size r) ∈ i.places := by
  by_cases hs : i.opcode.supported = true
  · have hloc : ∀ {name : RegName} {p : Place}, (name, p) ∈ i.places → p.loc = .temp (.reg 0 r) →
        ∃ name rw size, (name, Place.dest rw size r) ∈ i.places := fun {name p} hp hl => by
      cases p with
      | plain q => cases hl
      | pair q => cases hl
      | dest rw size q =>
        cases hl
        exact ⟨name, rw, size, hp⟩
    unfold lift at hx
    rw [if_pos hs, Lifted.block, Block.acts_append, Block.acts_ofList, List.mem_append, List.mem_map] at hx
    rcases hx with ⟨c, hc, hcx⟩ | hx
    · cases hcx
      rw [i.declared_eq] at hc
      rcases mem_code_foldl hc with hc | ⟨p, hp, hl⟩
      · exact absurd hc List.not_mem_nil
      · exact hloc hp ((hl e he).symm.trans hr)
    · obtain ⟨it, hit, imms, him⟩ := Block.mem_acts_instantiate _ _ _ _ hx
      cases it with
      | branch k e => simp [LiftEnv.item] at him
      | pcalign l => simp [LiftEnv.item] at him
      | insn y =>
        simp only [LiftEnv.item, Option.some.injEq, LiftAct.il.injEq] at him
        subst him
        rw [LiftEnv.insn, IlInsn.dests_subst, List.mem_map] at he
        obtain ⟨e', he', rfl⟩ := he
        obtain ⟨p, hp, hl⟩ := Insn.place_of_resolve hr
        exact hloc hp hl
  · rw [lift, if_neg hs] at hx
    have : x = .undefined := by simpa [Lifted.block, Block.ofList, Block.acts] using hx
    rw [this] at he
    exact absurd he List.not_mem_nil

theorem registered_of_place (hs : i.opcode.supported = true) {name : RegName} {rw : Bool} {size r : Nat}
    (h : (name, Place.dest rw size r) ∈ i.places) : r ∈ (lift pc i n ctx).ctx.regs.map DestReg.reg := by
  rw [lift_ctx hs, i.declared_eq]
  exact registered_foldl h

theorem temp_run_of_not_place {r : Nat} (hr : r < numHexRegs)
    (h : ∀ name rw size, (name, Place.dest rw size r) ∉ i.places) (s : PhysState) :
    ((lift pc i n ctx).block.run bodySem s).temp r = s.temp r := by
  have hr' : r < 100 := hr
  refine Block.run_induction bodySem (fun s' => s'.temp r = s.temp r) _ (fun a ha s' hs' => ?_) s rfl
  rw [← hs']
  refine exec_temp_of_index (fun x hx d hd t ht hk => ?_) s'
  have hreg : t = .reg 0 r := by
    cases t with
    | reg ss q =>
      simp only [Temp.index, numHexRegs] at hk
      have hss : ss = 0 := by omega
      subst hss
      rw [← hk, Nat.zero_mul, Nat.zero_add]
    | _ =>
      simp only [Temp.index] at hk
      omega
  rw [hx] at ha
  obtain ⟨name, rw', size, hp⟩ := place_of_write ha hd (ht.trans (congrArg _ hreg))
  exact h name rw' size hp

/-- An instruction that spares a destination's first byte does not declare it. -/
theorem not_place_of_spares {B : List Nat} (h : i.Spares B) (hs : i.opcode.supported = true) {r : Nat}
    (hb : regBase r ∈ B) (name : RegName) (rw : Bool) (size : Nat) : (name, Place.dest rw size r) ∉ i.places := by
  intro hp
  have hreg := @registered_of_place 0 _ 0 .empty hs _ _ _ _ hp
  obtain ⟨d, hd, rfl⟩ := List.mem_map.1 hreg
  have hgood : d.Good := good_lift (fun _ h => absurd h List.not_mem_nil) hd
  rcases (h 0 0 .empty).2 d hd with hd | hsp
  · exact absurd hd List.not_mem_nil
  · refine hgood.not_spares fun e he q hq b hb' => ?_
    rw [List.mem_singleton.1 hb']
    exact hsp e he q hq _ hb

theorem temp_run_spares {B : List Nat} (h : i.Spares B) {r : Nat} (hr : r < numHexRegs) (hb : regBase r ∈ B)
    (s : PhysState) : ((lift pc i n ctx).block.run bodySem s).temp r = s.temp r := by
  by_cases hs : i.opcode.supported = true
  · exact temp_run_of_not_place hr (not_place_of_spares h hs hb) s
  · rw [lift, if_neg hs]
    rfl

theorem reg_decls (s : PhysState) :
    (execAll ((lift pc i n ctx).decls.map (IlInsn.map LReg.index)) s).reg = s.reg := by
  have hsilent : ∀ c ∈ (lift pc i n ctx).decls, ∀ d ∈ c.dests, ∀ r, d.2 ≠ .hex r := by
    by_cases hs : i.opcode.supported = true
    · rw [lift, if_pos hs]
      exact (i.declared_ok ctx).silent
    · rw [lift, if_neg hs]
      exact fun c hc => absurd hc List.not_mem_nil
  have hall : ∀ (l : List (LInsn Temp)) (s : PhysState), (∀ c ∈ l, ∀ d ∈ c.dests, ∀ r, d.2 ≠ .hex r) →
      (execAll (l.map (IlInsn.map LReg.index)) s).reg = s.reg := by
    intro l
    induction l with
    | nil => exact fun _ _ => rfl
    | cons c l ih =>
      intro s hl
      rw [List.map_cons, execAll, List.foldl_cons, ← execAll, ih _ fun x hx => hl x (List.mem_cons_of_mem _ hx)]
      refine IlInsn.exec_reg (fun d hd r hr => ?_) s
      obtain ⟨e, he, rfl⟩ := map_dests c hd
      have hne := hl c List.mem_cons_self e he
      cases h2 : e.2 with
      | hex q => exact hne q h2
      | temp t =>
        rw [h2] at hr
        cases hr
  exact hall _ s hsilent

/-- The architectural registers an act writes, with the size of the write. -/
def LiftAct.hexWrites : LiftAct → List (Nat × Nat)
  | .il x => x.dests.filterMap fun d => match d.2 with
    | .hex r => some (d.1, r)
    | .temp _ => none
  | .branch _ _ => []

theorem mem_hexWrites {x : LInsn Temp} {e : Nat × LReg Temp} (he : e ∈ x.dests) {r : Nat} (hr : e.2 = .hex r) :
    (e.1, r) ∈ (LiftAct.il x).hexWrites :=
  List.mem_filterMap.2 ⟨e, he, by rw [hr]⟩

/-- What an instruction spares can be read off its behaviour and its declarations. -/
theorem Insn.spares_of {B : List Nat}
    (hbody : ∀ pc n ctx, ∀ q ∈ (lift pc i n ctx).body.acts.flatMap LiftAct.hexWrites, ∀ b ∈ B,
      ¬ (regBase q.2 ≤ b ∧ b < regBase q.2 + q.1))
    (hplaces : ∀ p ∈ i.places, ∀ rw size r, p.2 = .dest rw size r →
      (DestReg.copyFromTemp ⟨rw, size, r⟩).Spares B) : i.Spares B := by
  refine fun pc n ctx => ⟨fun x hx e he r hr b hb => ?_, fun d hd => ?_⟩
  · rw [Lifted.block, Block.acts_append, Block.acts_ofList, List.mem_append, List.mem_map] at hx
    rcases hx with ⟨c, hc, hcx⟩ | hx
    · cases hcx
      have hsilent : ∀ r, e.2 ≠ .hex r := by
        by_cases hs : i.opcode.supported = true
        · rw [lift, if_pos hs] at hc
          exact (i.declared_ok ctx).silent x hc e he
        · rw [lift, if_neg hs] at hc
          exact absurd hc List.not_mem_nil
      exact absurd hr (hsilent r)
    · exact hbody pc n ctx (e.1, r) (List.mem_flatMap.2 ⟨_, hx, mem_hexWrites he hr⟩) b hb
  · refine (mem_lift_ctx hd).imp id fun hex => ?_
    obtain ⟨name, hp⟩ := hex
    exact hplaces _ hp _ _ _ rfl

end Lift

section Packet

variable {pc : BitVec 64} {B : List Nat} {b r : Nat}

theorem temp_packetBody_spares (hr : r < numHexRegs) (hb : regBase r ∈ B) : ∀ {is : List Insn} {n : Nat}
    {ctx : PacketContext}, (∀ i ∈ is, i.Spares B) → ∀ s : PhysState,
      ((packetBody (liftInsns pc n is ctx)).run bodySem s).temp r = s.temp r
  | [], _, _, _, _ => rfl
  | i :: is, n, ctx, h, s => by
    rw [liftInsns, run_packetBody_cons,
      temp_packetBody_spares hr hb fun j hj => h j (List.mem_cons_of_mem _ hj)]
    exact temp_run_spares (h i List.mem_cons_self) hr hb s

end Packet
end Hex
