import BinjaHexagon.DestRegs
import BinjaHexagon.LoopEnd
/-!
# LoopPacket — packets that set up and end loops

One instruction of a packet reads and writes the registers of a loop, and the others leave those bytes alone.
-/
namespace Hex

open Flow (Block)

theorem lastCtx_of_mem {pc : BitVec 64} {d : DestReg} : ∀ (is : List Insn) (n : Nat) {ctx : PacketContext},
    d ∈ ctx.regs → d ∈ (lastCtx ctx (liftInsns pc n is ctx)).regs
  | [], _, _, h => h
  | _ :: is, n, _, h => lastCtx_of_mem is (n + 1) (mem_lift_ctx_of h)

theorem IlInsn.Spares.mono {τ : Type} {x : LInsn τ} {B C : List Nat} (h : x.Spares B) (hBC : ∀ b ∈ C, b ∈ B) :
    x.Spares C := fun d hd r hr b hb => h d hd r hr b (hBC b hb)

theorem Insn.Spares.mono {i : Insn} {B C : List Nat} (h : i.Spares B) (hBC : ∀ b ∈ C, b ∈ B) : i.Spares C :=
  fun pc n ctx => ⟨fun x hx => ((h pc n ctx).1 x hx).mono hBC,
    fun d hd => ((h pc n ctx).2 d hd).imp id fun hs => hs.mono hBC⟩

section One

variable (h : HashOrder) (pc : BitVec 64) (cof : Bool) (pre : List Insn) (i : Insn) (post : List Insn) (s : PhysState)

def beforeCtx : PacketContext := lastCtx .empty (liftInsns pc 0 pre .empty)

/-- The state `i` finds. -/
def beforeInsn : PhysState :=
  (packetBody (liftInsns pc 0 pre .empty)).run bodySem (execAll (initFlags cof (pre ++ i :: post)) s)

/-- The state `i` leaves. -/
def afterInsn : PhysState :=
  (lift pc i pre.length (beforeCtx pc pre)).block.run bodySem (beforeInsn pc cof pre i post s)

def afterPacket : PhysState :=
  packetState h pc (pre ++ i :: post) (execAll (initFlags cof (pre ++ i :: post)) s)

variable {B : List Nat} {b : Nat} (hpre : ∀ j ∈ pre, j.Spares B) (hpost : ∀ j ∈ post, j.Spares B)

section

variable {h pc cof pre i post s}

theorem liftInsns_one : liftInsns pc 0 (pre ++ i :: post) .empty = liftInsns pc 0 pre .empty ++
    lift pc i pre.length (beforeCtx pc pre) ::
      liftInsns pc (pre.length + 1) post (lift pc i pre.length (beforeCtx pc pre)).ctx := by
  rw [liftInsns_append, Nat.zero_add]
  rfl

theorem bodyState_one : bodyState pc (pre ++ i :: post) (execAll (initFlags cof (pre ++ i :: post)) s) =
    (packetBody (liftInsns pc (pre.length + 1) post (lift pc i pre.length (beforeCtx pc pre)).ctx)).run bodySem
      (afterInsn pc cof pre i post s) := by
  rw [bodyState, liftInsns_one, run_packetBody_append, run_packetBody_cons]
  rfl

theorem lastCtx_one : lastCtx .empty (liftInsns pc 0 (pre ++ i :: post) .empty) =
    lastCtx (lift pc i pre.length (beforeCtx pc pre)).ctx
      (liftInsns pc (pre.length + 1) post (lift pc i pre.length (beforeCtx pc pre)).ctx) := by
  rw [liftInsns_one, lastCtx_append]
  rfl

include hpre

theorem beforeCtx_spares : ∀ d ∈ (beforeCtx pc pre).regs, d.copyFromTemp.Spares B := fun d hd =>
  (lastCtx_spares hpre d hd).resolve_left List.not_mem_nil

theorem reg_beforeInsn (hb : b ∈ B) : (beforeInsn pc cof pre i post s).reg b = s.reg b := by
  rw [beforeInsn, reg_packetBody_spares hpre hb, reg_initFlags]

include hpost

/-- **A byte that only `i` may write, and not by a destination**, is as `i` leaves it. -/
theorem reg_afterPacket (hb : b ∈ B) (hi : ∀ d ∈ (lift pc i pre.length (beforeCtx pc pre)).ctx.regs,
    d ∈ (beforeCtx pc pre).regs ∨ d.copyFromTemp.Spares [b]) :
    (afterPacket h pc cof pre i post s).reg b = (afterInsn pc cof pre i post s).reg b := by
  have hsub : ∀ c ∈ [b], c ∈ B := fun c hc => by rwa [List.mem_singleton.1 hc]
  have hall : ∀ d ∈ (lastCtx .empty (liftInsns pc 0 (pre ++ i :: post) .empty)).regs, d.copyFromTemp.Spares [b] := by
    intro d hd
    rw [lastCtx_one] at hd
    rcases lastCtx_spares hpost d hd with hd | hd
    · exact (hi d hd).elim (fun hd => (beforeCtx_spares hpre d hd).mono hsub) id
    · exact hd.mono hsub
  rw [afterPacket, packetState, reg_writeBack_spares hall List.mem_cons_self, bodyState_one,
    reg_packetBody_spares hpost hb]

/-- A destination that only `i` has. -/
theorem reg_afterPacket_dest {d : DestReg} (hd : d ∈ (lift pc i pre.length (beforeCtx pc pre)).ctx.regs)
    (hlt : d.reg < numHexRegs) (hb : regBase d.reg ∈ B)
    (hi : ∀ e ∈ (lift pc i pre.length (beforeCtx pc pre)).ctx.regs, e ≠ d → e ∈ (beforeCtx pc pre).regs ∨
      e.copyFromTemp.Spares [regBase d.reg]) :
    (afterPacket h pc cof pre i post s).reg (regBase d.reg) = (afterInsn pc cof pre i post s).temp d.reg 0 := by
  have hsub : ∀ c ∈ [regBase d.reg], c ∈ B := fun c hc => by rwa [List.mem_singleton.1 hc]
  have hgood : d.Good := good_lift (good_lastCtx pre 0 fun _ h => absurd h List.not_mem_nil) hd
  have hpos := hgood.pos
  have hmem : d ∈ (lastCtx .empty (liftInsns pc 0 (pre ++ i :: post) .empty)).regs := by
    rw [lastCtx_one]
    exact lastCtx_of_mem post _ hd
  have hall : ∀ e ∈ (lastCtx .empty (liftInsns pc 0 (pre ++ i :: post) .empty)).regs, e ≠ d →
      e.copyFromTemp.Spares [regBase d.reg] := by
    intro e he hne
    rw [lastCtx_one] at he
    rcases lastCtx_spares hpost e he with he | he
    · exact (hi e he hne).elim (fun he => (beforeCtx_spares hpre e he).mono hsub) id
    · exact he.mono hsub
  rw [afterPacket, packetState, reg_writeBack hmem hgood.fits ⟨Nat.le_refl _, by omega⟩ hall, Nat.sub_self,
    bodyState_one, temp_packetBody_spares hlt hb hpost]

end
end One

theorem run_block_decls (l : Lifted) (s : PhysState) : l.block.run bodySem s =
    l.body.run bodySem (execAll (l.decls.map (IlInsn.map LReg.index)) s) := by
  have hdecls : ∀ (c : List (LInsn Temp)) (s : PhysState), (Block.ofList (c.map .il) : LiftBlock).run bodySem s =
      execAll (c.map (IlInsn.map LReg.index)) s := by
    intro c
    induction c with
    | nil => exact fun _ => rfl
    | cons x c ih => exact fun s => ih _
  rw [Lifted.block, Block.run_append, hdecls]

theorem reached_block_decls (l : Lifted) (s : PhysState) : reachedBranch (l.block.log bodySem s) =
    reachedBranch (l.body.log bodySem (execAll (l.decls.map (IlInsn.map LReg.index)) s)) := by
  have hdecls : ∀ (c : List (LInsn Temp)) (s : PhysState), (Block.ofList (c.map .il) : LiftBlock).run bodySem s =
      execAll (c.map (IlInsn.map LReg.index)) s ∧
        reachedBranch ((Block.ofList (c.map .il) : LiftBlock).log bodySem s) = false := by
    intro c
    induction c with
    | nil => exact fun _ => ⟨rfl, rfl⟩
    | cons x c ih => exact fun s => ih _
  obtain ⟨hrun, hlog⟩ := hdecls l.decls s
  rw [reachedBranch] at hlog ⊢
  rw [Lifted.block, Block.log_append, List.any_append, hrun, hlog]
  rfl

theorem get_temp_afterPacket {h : HashOrder} {pc : BitVec 64} {cof : Bool} {pre : List Insn} {i : Insn} {s : PhysState}
    (n t : Nat) :
    (afterPacket h pc cof pre i [] s).get n (.temp t) = (afterInsn pc cof pre i [] s).get n (.temp t) := by
  have htemp : (afterPacket h pc cof pre i [] s).temp = (afterInsn pc cof pre i [] s).temp := by
    rw [afterPacket, packetState, temp_execAll_writeBack, bodyState_one]
    rfl
  rw [State.get, State.get, htemp]

section Bytes

/-- The bytes of `SAk` and `LCk`. -/
def loopBytes (k : Nat) : List Nat := List.range' (regBase (hexRegSa k)) 8

def usrBytes : List Nat := List.range' (regBase hexRegUsr) 4

def p3Byte : Nat := regBase hexRegP3

/-- The bytes of loop `k`: its registers, `USR`, and `P3` for the loop that can be pipelined. -/
def ownBytes (k : Nat) : List Nat := (if k = 0 then [p3Byte] else []) ++ (loopBytes k ++ usrBytes)

/-- The registers as the packet's entry has them. -/
def loopRegs (s : PhysState) : LoopRegs := { loopTemps s with p3 := s.reg p3Byte }

variable {s s' : PhysState}

theorem State.get_congr {n r : Nat} (h : ∀ j < n, s'.reg (regBase r + j) = s.reg (regBase r + j)) :
    s'.get n (.hex r) = s.get n (.hex r) := Bytes.join_congr h

theorem get_loop_congr {k : Nat} (hk : k = 0 ∨ k = 1) (h : ∀ b ∈ loopBytes k, s'.reg b = s.reg b) :
    s'.get 4 (.hex (hexRegLc k)) = s.get 4 (.hex (hexRegLc k)) ∧
      s'.get 4 (.hex (hexRegSa k)) = s.get 4 (.hex (hexRegSa k)) := by
  have hlc : regBase (hexRegLc k) = regBase (hexRegSa k) + 4 := by
    rcases hk with rfl | rfl <;> rfl
  refine ⟨State.get_congr fun j hj => h _ (List.mem_range'_1.2 ?_),
    State.get_congr fun j hj => h _ (List.mem_range'_1.2 ?_)⟩
  · omega
  · omega

theorem get_usr_congr (h : ∀ b ∈ usrBytes, s'.reg b = s.reg b) :
    s'.get 4 (.hex hexRegUsr) = s.get 4 (.hex hexRegUsr) ∧
      s'.get 1 (.hex hexRegUsrLpcfg) = s.get 1 (.hex hexRegUsrLpcfg) := by
  refine ⟨State.get_congr fun j hj => h _ (List.mem_range'_1.2 ?_),
    State.get_congr fun j hj => h _ (List.mem_range'_1.2 ?_)⟩
  · omega
  · have h1 : regBase hexRegUsrLpcfg = 161 := rfl
    have h2 : regBase hexRegUsr = 160 := rfl
    omega

end Bytes

namespace EndKind

/-- The bytes of the loops it ends. -/
def bytes (e : EndKind) : List Nat :=
  (if e.ends 0 then ownBytes 0 else []) ++ if e.ends 1 then ownBytes 1 else []

variable {e : EndKind} {b k : Nat}

theorem ownBytes_subset (h : e.ends k = true) (hb : b ∈ ownBytes k) : b ∈ e.bytes := by
  unfold bytes
  rcases ends_cases h with ⟨rfl, he⟩ | ⟨rfl, he⟩
  · rw [if_pos h]
    exact List.mem_append_left _ hb
  · rw [if_pos h]
    exact List.mem_append_right _ hb

theorem loopBytes_subset (h : e.ends k = true) (hb : b ∈ loopBytes k) : b ∈ e.bytes :=
  ownBytes_subset h (List.mem_append_right _ (List.mem_append_left _ hb))

theorem usrBytes_subset (hb : b ∈ usrBytes) : b ∈ e.bytes := by
  have hone : ∃ k, e.ends k = true := by
    cases e with
    | endloop0 | endloop01 => exact ⟨0, rfl⟩
    | endloop1 => exact ⟨1, rfl⟩
  obtain ⟨k, hk⟩ := hone
  exact ownBytes_subset hk (List.mem_append_right _ (List.mem_append_right _ hb))

theorem p3Byte_mem (h : e.ends 0 = true) : p3Byte ∈ e.bytes := ownBytes_subset h List.mem_cons_self

/-- The registers of the loops that `e` ends are the same. -/
structure Agree (e : EndKind) (r r' : LoopRegs) : Prop where
  lc : ∀ k, e.ends k = true → r.lc k = r'.lc k
  lpcfg : e.ends 0 = true → r.lpcfg = r'.lpcfg
  p3 : e.ends 0 = true → r.p3 = r'.p3

theorem Agree.trans {r r' r'' : LoopRegs} (h : e.Agree r r') (h' : e.Agree r' r'') : e.Agree r r'' :=
  ⟨fun k hk => (h.lc k hk).trans (h'.lc k hk), fun hk => (h.lpcfg hk).trans (h'.lpcfg hk),
    fun hk => (h.p3 hk).trans (h'.p3 hk)⟩

theorem agree_endloop0 {r r' : LoopRegs} (hlc : r.lc0 = r'.lc0) (hcfg : r.lpcfg = r'.lpcfg) (hp3 : r.p3 = r'.p3) :
    endloop0.Agree r r' := by
  refine ⟨fun k hk => ?_, fun _ => hcfg, fun _ => hp3⟩
  obtain rfl : k = 0 := by simpa [ends] using hk
  exact hlc

theorem agree_endloop1 {r r' : LoopRegs} (hlc : r.lc1 = r'.lc1) : endloop1.Agree r r' := by
  refine ⟨fun k hk => ?_, nofun, nofun⟩
  obtain rfl : k = 1 := by simpa [ends] using hk
  exact hlc

theorem Agree.reference {r r' : LoopRegs} (h : e.Agree r r') :
    e.Agree (e.reference r).1 (e.reference r').1 ∧ (e.reference r).2 = (e.reference r').2 := by
  obtain ⟨a, b, c, d⟩ := r
  obtain ⟨a', b', c', d'⟩ := r'
  cases e with
  | endloop0 =>
    obtain rfl : a = a' := h.lc 0 rfl
    obtain rfl : c = c' := h.lpcfg rfl
    obtain rfl : d = d' := h.p3 rfl
    have hcount : ∀ b, LoopRegs.countdown ⟨a, b, c, d⟩ = { LoopRegs.countdown ⟨a, b', c, d⟩ with lc1 := b } := by
      intro b
      unfold LoopRegs.countdown
      split <;> rfl
    rw [EndKind.reference, EndKind.reference, hcount b]
    by_cases hc : 1 < (LoopRegs.countdown ⟨a, b', c, d⟩).lc0
    · rw [if_pos hc, if_pos hc]
      exact ⟨agree_endloop0 rfl rfl rfl, rfl⟩
    · rw [if_neg hc, if_neg hc]
      exact ⟨agree_endloop0 rfl rfl rfl, rfl⟩
  | endloop1 =>
    obtain rfl : b = b' := h.lc 1 rfl
    rw [EndKind.reference, EndKind.reference]
    by_cases hc : 1 < b
    · rw [if_pos hc, if_pos hc]
      exact ⟨agree_endloop1 rfl, rfl⟩
    · rw [if_neg hc, if_neg hc]
      exact ⟨agree_endloop1 rfl, rfl⟩
  | endloop01 =>
    obtain rfl : a = a' := h.lc 0 rfl
    obtain rfl : b = b' := h.lc 1 rfl
    obtain rfl : c = c' := h.lpcfg rfl
    obtain rfl : d = d' := h.p3 rfl
    exact ⟨⟨fun _ _ => rfl, fun _ => rfl, fun _ => rfl⟩, rfl⟩

end EndKind

section EndPacket

variable {e : EndKind} {h : HashOrder} {pc : BitVec 64} {cof : Bool} {pre : List Insn} {i : Insn} {s : PhysState}
variable (hi : i.opcode.toOpcodeRow = e.opcode.toOpcodeRow) (hpre : ∀ j ∈ pre, j.Spares e.bytes)

/-- The state before the packet is small. -/
structure EndKind.SmallAt (e : EndKind) (s : PhysState) : Prop where
  count : ∀ k, e.ends k = true → ((loopRegs s).lc k).toNat < 2 ^ 31
  usr : e.ends 0 = true → usrHigh s = 0

/-- `P3`, registered to be read and written. -/
def p3Dest : DestReg := ⟨true, 1, hexRegP3⟩

/-- The state the body of the end finds. -/
def declsState (pc : BitVec 64) (cof : Bool) (pre : List Insn) (i : Insn) (s : PhysState) : PhysState :=
  execAll ((lift pc i pre.length (beforeCtx pc pre)).decls.map (IlInsn.map LReg.index)) (beforeInsn pc cof pre i [] s)

theorem not_mem_beforeCtx {B : List Nat} (hpre : ∀ j ∈ pre, j.Spares B) (hb : p3Byte ∈ B) :
    hexRegP3 ∉ (beforeCtx pc pre).regs.map DestReg.reg := by
  intro hmem
  obtain ⟨d, hd, hreg⟩ := List.mem_map.1 hmem
  have hgood : d.Good := good_lastCtx pre 0 (fun _ h => absurd h List.not_mem_nil) d hd
  refine hgood.not_spares ((beforeCtx_spares hpre d hd).mono fun b hb' => ?_)
  rw [List.mem_singleton.1 hb', hreg]
  exact hb

include hi hpre in
theorem decls_end : (lift pc i pre.length (beforeCtx pc pre)).ctx.regs =
      (beforeCtx pc pre).regs ++ (if e.ends 0 then [p3Dest] else []) ∧
    (lift pc i pre.length (beforeCtx pc pre)).decls = if e.ends 0 then [copyToTemp 1 hexRegP3 0] else [] := by
  have hdecls := EndKind.decls_lift hi pc pre.length (beforeCtx pc pre)
  by_cases h0 : e.ends 0 = true
  · rw [if_pos h0] at hdecls ⊢
    rw [if_pos h0]
    rw [PacketContext.addDestReg, dif_neg (not_mem_beforeCtx hpre (EndKind.p3Byte_mem h0))] at hdecls
    exact ⟨congrArg (fun q => q.1.regs) hdecls, congrArg Prod.snd hdecls⟩
  · rw [if_neg h0] at hdecls ⊢
    rw [if_neg h0, List.append_nil]
    exact ⟨congrArg (fun q => q.1.regs) hdecls, congrArg Prod.snd hdecls⟩

include hi hpre in
theorem declsState_reg : (declsState pc cof pre i s).reg = (beforeInsn pc cof pre i [] s).reg ∧
    (e.ends 0 = true → (declsState pc cof pre i s).temp hexRegP3 0 = s.reg p3Byte) := by
  rw [declsState, (decls_end hi hpre).2]
  by_cases h0 : e.ends 0 = true
  · rw [if_pos h0]
    have hfit : Fits 1 hexRegP3 := ⟨by decide, nofun⟩
    have hcopy := temp_copyToTemp hfit 0 (beforeInsn pc cof pre i [] s) (i := 0) (by decide)
    refine ⟨?_, fun _ => hcopy.trans (reg_beforeInsn hpre (EndKind.p3Byte_mem h0))⟩
    rw [List.map_cons, List.map_nil, execAll, List.foldl_cons, List.foldl_nil, exec_copyToTemp hfit]
    rfl
  · rw [if_neg h0]
    exact ⟨rfl, fun h => absurd h h0⟩

theorem p3Dest_spares {b : Nat} (hb : b ≠ p3Byte) : p3Dest.copyFromTemp.Spares [b] := by
  intro d hd r hr c hc hcov
  obtain rfl : d = (1, .hex hexRegP3) := List.mem_singleton.1 hd
  cases hr
  rw [List.mem_singleton.1 hc] at hcov
  have hp3 : p3Byte = regBase hexRegP3 := rfl
  dsimp only at hcov
  omega

include hi hpre

theorem reg_end {b : Nat} (hb : b ∈ e.bytes) (hne : e.ends 0 = true → b ≠ p3Byte) :
    (afterPacket h pc cof pre i [] s).reg b = (afterInsn pc cof pre i [] s).reg b := by
  refine reg_afterPacket hpre (fun _ hj => absurd hj List.not_mem_nil) hb fun d hd => ?_
  rw [(decls_end hi hpre).1, List.mem_append] at hd
  refine hd.imp id fun hd => ?_
  by_cases h0 : e.ends 0 = true
  · rw [if_pos h0, List.mem_singleton] at hd
    rw [hd]
    exact p3Dest_spares (hne h0)
  · rw [if_neg h0] at hd
    exact absurd hd List.not_mem_nil

theorem p3_end (h0 : e.ends 0 = true) :
    (afterPacket h pc cof pre i [] s).reg p3Byte = (afterInsn pc cof pre i [] s).temp hexRegP3 0 := by
  have hmem : p3Dest ∈ (lift pc i pre.length (beforeCtx pc pre)).ctx.regs := by
    rw [(decls_end hi hpre).1, if_pos h0]
    exact List.mem_append_right _ List.mem_cons_self
  refine reg_afterPacket_dest hpre (fun _ hj => absurd hj List.not_mem_nil) hmem (by decide) (EndKind.p3Byte_mem h0)
    fun d hd hne => ?_
  rw [(decls_end hi hpre).1, if_pos h0, List.mem_append, List.mem_singleton] at hd
  exact hd.elim .inl fun hd => absurd hd hne

theorem agree_declsState : e.Agree (loopTemps (declsState pc cof pre i s)) (loopRegs s) ∧
    usrRest (declsState pc cof pre i s) = usrRest s ∧
    (declsState pc cof pre i s).get 1 (.hex hexRegUsrLpcfg) = s.get 1 (.hex hexRegUsrLpcfg) ∧
    ∀ k, e.ends k = true →
      (declsState pc cof pre i s).get 4 (.hex (hexRegSa k)) = s.get 4 (.hex (hexRegSa k)) := by
  obtain ⟨hreg, hp3⟩ := @declsState_reg e pc cof pre i s hi hpre
  have hbytes : ∀ b ∈ e.bytes, (declsState pc cof pre i s).reg b = s.reg b := fun b hb => by
    rw [hreg, reg_beforeInsn hpre hb]
  have husr := get_usr_congr fun b hb => hbytes b (EndKind.usrBytes_subset hb)
  have hloop : ∀ k, e.ends k = true → _ := fun k hk =>
    get_loop_congr ((EndKind.ends_cases hk).imp And.left And.left) fun b hb => hbytes b (EndKind.loopBytes_subset hk hb)
  refine ⟨⟨fun k hk => ?_, fun _ => congrArg (BitVec.setWidth 2) husr.2, hp3⟩, congrArg (· &&& _) husr.1, husr.2,
    fun k hk => (hloop k hk).2⟩
  have hlc := congrArg (BitVec.setWidth 32) (hloop k hk).1
  rcases (EndKind.ends_cases hk).imp And.left And.left with rfl | rfl <;> exact hlc

/-- **A packet that ends a loop does what the reference does**, from a small state. -/
theorem end_packet (hsmall : e.SmallAt s) :
    e.Agree (loopRegs (afterPacket h pc cof pre i [] s)) (e.reference (loopRegs s)).1 ∧
    usrRest (afterPacket h pc cof pre i [] s) = usrRest s ∧
    (∀ k, e.ends k = true → (e.reference (loopRegs s)).2 = some k →
      (afterPacket h pc cof pre i [] s).get 4 (.temp (200 + pre.length)) = s.get 4 (.hex (hexRegSa k))) ∧
    reachedBranch ((lift pc i pre.length (beforeCtx pc pre)).block.log bodySem (beforeInsn pc cof pre i [] s)) =
      (e.reference (loopRegs s)).2.isSome := by
  obtain ⟨hagree, husr, hlpcfg, hsa⟩ := @agree_declsState e pc cof pre i s hi hpre
  have hbody : afterInsn pc cof pre i [] s = (e.block pre.length).run bodySem (declsState pc cof pre i s) := by
    rw [afterInsn, run_block_decls, EndKind.body_lift hi]
    rfl
  have hsmall' : e.Small (declsState pc cof pre i s) := by
    refine ⟨fun k hk => ?_, fun h0 => ?_⟩
    · rw [hagree.lc k hk]
      exact hsmall.count k hk
    · rw [hlpcfg]
      exact lpcfg_lt (hsmall.usr h0)
  obtain ⟨hends, hreached⟩ := EndKind.run_block hsmall' pre.length
  rw [← hbody] at hends
  obtain ⟨href, hnext⟩ := hagree.reference
  have hreg : ∀ b ∈ e.bytes, (e.ends 0 = true → b ≠ p3Byte) →
      (afterPacket h pc cof pre i [] s).reg b = (afterInsn pc cof pre i [] s).reg b := fun b hb hne =>
    reg_end hi hpre hb hne
  have hnot : ∀ b, b ∈ usrBytes ∨ (∃ k, (k = 0 ∨ k = 1) ∧ b ∈ loopBytes k) → b ≠ p3Byte := by
    rintro b (hb | ⟨k, rfl | rfl, hb⟩) rfl
    · exact absurd hb (by decide)
    · exact absurd hb (by decide)
    · exact absurd hb (by decide)
  have husr' := get_usr_congr fun b hb => hreg b (EndKind.usrBytes_subset hb) fun _ => hnot b (.inl hb)
  have hloop : ∀ k, e.ends k = true → _ := fun k hk =>
    have hk01 := (EndKind.ends_cases hk).imp And.left And.left
    get_loop_congr hk01 fun b hb => hreg b (EndKind.loopBytes_subset hk hb) fun _ => hnot b (.inr ⟨k, hk01, hb⟩)
  have hafter : e.Agree (loopRegs (afterPacket h pc cof pre i [] s)) (loopTemps (afterInsn pc cof pre i [] s)) := by
    refine ⟨fun k hk => ?_, fun _ => congrArg (BitVec.setWidth 2) husr'.2, fun h0 => p3_end hi hpre h0⟩
    have hlc := congrArg (BitVec.setWidth 32) (hloop k hk).1
    rcases (EndKind.ends_cases hk).imp And.left And.left with rfl | rfl <;> exact hlc
  refine ⟨?_, ?_, fun k hk hback => ?_, ?_⟩
  · refine hafter.trans ?_
    rw [hends.regs]
    exact href
  · exact (congrArg (· &&& _) husr'.1).trans (hends.usr.trans husr)
  · rw [get_temp_afterPacket, hends.dest k (hnext.trans hback)]
    exact hsa k hk
  · rw [reached_block_decls, EndKind.body_lift hi, ← hnext]
    exact hreached

end EndPacket

namespace EndKind

/-- The architectural registers its body writes. -/
def hexWrites : EndKind → List (Nat × Nat)
  | endloop0 => [(1, hexRegUsrLpcfg), (4, hexRegLc0)]
  | endloop1 => [(4, hexRegLc1)]
  | endloop01 => [(1, hexRegUsrLpcfg), (4, hexRegLc0), (4, hexRegLc1)]

theorem hexWrites_block (e : EndKind) (n : Nat) : (e.block n).acts.flatMap LiftAct.hexWrites = e.hexWrites := by
  cases e <;> rfl

theorem places_eq {e : EndKind} {i : Insn} (hi : i.opcode.toOpcodeRow = e.opcode.toOpcodeRow) :
    i.places.map Prod.snd = if e.ends 0 then [.dest true 1 hexRegP3] else [] := by
  obtain ⟨⟨row, _, _, _, _⟩, regno, immed, part1, ext, _⟩ := i
  dsimp only at hi
  subst hi
  cases e <;> rfl

theorem spares {e : EndKind} {i : Insn} (hi : i.opcode.toOpcodeRow = e.opcode.toOpcodeRow) {B : List Nat}
    (hB : ∀ b ∈ B, b ≠ p3Byte ∧ ∀ q ∈ e.hexWrites, ¬ (regBase q.2 ≤ b ∧ b < regBase q.2 + q.1)) : i.Spares B := by
  refine Insn.spares_of (fun pc n ctx q hq b hb => ?_) fun p hp rw size r hpd => ?_
  · rw [body_lift hi, hexWrites_block] at hq
    exact (hB b hb).2 q hq
  · have hmem := List.mem_map_of_mem (f := Prod.snd) hp
    rw [places_eq hi, hpd] at hmem
    split at hmem
    · cases List.mem_singleton.1 hmem
      exact fun d hd r hr b hb => p3Dest_spares (hB b hb).1 d hd r hr b List.mem_cons_self
    · exact absurd hmem List.not_mem_nil

end EndKind

section SetUp

variable {k : Opcodes.LoopKind} {imm : Bool} {i : Insn}

theorem hexWrites_setup (hi : i.opcode.toOpcodeRow = Opcodes.loopRow k imm) (pc : BitVec 64) (n : Nat)
    (ctx : PacketContext) : (lift pc i n ctx).body.acts.flatMap LiftAct.hexWrites =
      [(4, hexRegLc k.index), (4, hexRegSa k.index)] ++ if k.index = 0 then [(1, hexRegUsrLpcfg)] else [] := by
  obtain ⟨⟨row, _, _, _, _⟩, regno, immed, part1, ext, _⟩ := i
  dsimp only at hi
  subst hi
  cases k <;> cases imm <;> rfl

theorem places_setup (hi : i.opcode.toOpcodeRow = Opcodes.loopRow k imm) : i.places.map Prod.snd =
    (if imm then [] else [.plain (mapRegNum .R (i.reg 0))]) ++
      if k.pipelined then [.dest true 1 hexRegP3] else [] := by
  obtain ⟨⟨row, _, _, _, _⟩, regno, immed, part1, ext, _⟩ := i
  dsimp only at hi
  subst hi
  cases k <;> cases imm <;> rfl

/-- A set-up has no other destination than `P3`. -/
theorem place_setup (hi : i.opcode.toOpcodeRow = Opcodes.loopRow k imm) {q : RegName} {rw : Bool} {size r : Nat}
    (hp : (q, .dest rw size r) ∈ i.places) : k.pipelined = true ∧ (⟨rw, size, r⟩ : DestReg) = p3Dest := by
  have hmem := List.mem_map_of_mem (f := Prod.snd) hp
  rw [places_setup hi, List.mem_append] at hmem
  rcases hmem with hmem | hmem
  · cases imm with
    | true => exact absurd hmem List.not_mem_nil
    | false => cases List.mem_singleton.1 hmem
  · cases hk : k.pipelined with
    | false =>
      rw [hk] at hmem
      exact absurd hmem List.not_mem_nil
    | true =>
      rw [hk] at hmem
      cases List.mem_singleton.1 hmem
      exact ⟨rfl, rfl⟩

theorem spares_setup (hi : i.opcode.toOpcodeRow = Opcodes.loopRow k imm) {B : List Nat}
    (hB : ∀ b ∈ B, b ≠ p3Byte ∧ b ≠ regBase hexRegUsrLpcfg ∧ b ∉ loopBytes k.index) : i.Spares B := by
  refine Insn.spares_of (fun pc n ctx q hq b hb hcov => ?_) fun p hp rw size r hpd => ?_
  · obtain ⟨-, husr, hloop⟩ := hB b hb
    rw [loopBytes, List.mem_range'_1] at hloop
    have hlc : regBase (hexRegLc k.index) = regBase (hexRegSa k.index) + 4 := by
      cases k <;> rfl
    rw [hexWrites_setup hi, List.mem_append] at hq
    rcases hq with hq | hq
    · rcases List.mem_cons.1 hq with rfl | hq
      · dsimp only at hcov
        omega
      · rw [List.mem_singleton.1 hq] at hcov
        dsimp only at hcov
        omega
    · split at hq
      · rw [List.mem_singleton.1 hq] at hcov
        dsimp only at hcov
        omega
      · exact absurd hq List.not_mem_nil
  · obtain ⟨q, p⟩ := p
    cases hpd
    rw [(place_setup hi hp).2]
    exact fun d hd r hr b hb => p3Dest_spares (hB b hb).1 d hd r hr b List.mem_cons_self

theorem set_loop {n : Nat} (hn : n = 0 ∨ n = 1) (c a : BitVec 64) (t : PhysState) :
    ((t.setReg 4 (hexRegLc n) c).setReg 4 (hexRegSa n) a).get 4 (.hex (hexRegLc n)) = Bytes.norm 4 c ∧
      ((t.setReg 4 (hexRegLc n) c).setReg 4 (hexRegSa n) a).get 4 (.hex (hexRegSa n)) = Bytes.norm 4 a ∧
      ((t.setReg 4 (hexRegLc n) c).setReg 4 (hexRegSa n) a).get 1 (.hex hexRegUsrLpcfg) =
        t.get 1 (.hex hexRegUsrLpcfg) ∧
      usrRest ((t.setReg 4 (hexRegLc n) c).setReg 4 (hexRegSa n) a) = usrRest t := by
  have hapart : State.Apart (hexRegSa n) 4 (hexRegLc n) 4 ∧
      (State.Apart (hexRegLc n) 4 hexRegUsrLpcfg 1 ∧ State.Apart (hexRegSa n) 4 hexRegUsrLpcfg 1) ∧
      State.Apart (hexRegLc n) 4 hexRegUsr 4 ∧ State.Apart (hexRegSa n) 4 hexRegUsr 4 := by
    rcases hn with rfl | rfl <;> decide
  obtain ⟨hsa, ⟨hcfg, hcfg'⟩, husr, husr'⟩ := hapart
  refine ⟨?_, State.get_setReg_same _ 4 a _ (by decide), ?_, congrArg (· &&& _) ?_⟩
  · rw [State.get_setReg_apart _ 4 a hsa, State.get_setReg_same _ 4 c _ (by decide)]
  · rw [State.get_setReg_apart _ 4 a hcfg', State.get_setReg_apart _ 4 c hcfg]
  · rw [State.get_setReg_apart _ 4 a husr', State.get_setReg_apart _ 4 c husr]

theorem usrRest_congr_get {s s' : PhysState} (h : s'.get 4 (.hex hexRegUsr) = s.get 4 (.hex hexRegUsr)) :
    usrRest s' = usrRest s := congrArg (· &&& _) h

theorem set_config {g : Nat} (hg : g < 4) (u : PhysState) :
    (u.setReg 1 hexRegUsrLpcfg (Bytes.norm 4 (BitVec.ofNat 64 g))).get 4 (.hex hexRegLc0) = u.get 4 (.hex hexRegLc0) ∧
      (loopTemps (u.setReg 1 hexRegUsrLpcfg (Bytes.norm 4 (BitVec.ofNat 64 g)))).lpcfg = BitVec.ofNat 2 g ∧
      (u.get 1 (.hex hexRegUsrLpcfg) < 4 →
        usrRest (u.setReg 1 hexRegUsrLpcfg (Bytes.norm 4 (BitVec.ofNat 64 g))) = usrRest u) := by
  have hval : ∀ g < 4, Bytes.norm 4 (BitVec.ofNat 64 g) < 4 ∧
      (Bytes.norm 1 (Bytes.norm 4 (BitVec.ofNat 64 g))).setWidth 2 = BitVec.ofNat 2 g := by decide
  obtain ⟨hlt, hcfg⟩ := hval g hg
  refine ⟨State.get_setReg_apart u 1 _ (by decide), ?_, fun hu => usrRest_setLpcfg hu hlt⟩
  rw [loopTemps_setLpcfg]
  exact hcfg

/-- **What a set-up writes**: the count, the configuration and nothing else of `USR`, and `P3` where it is pipelined. -/
theorem exec_loopCode (pc : BitVec 64) (t : PhysState) :
    (execAll (loopCode pc i k imm) t).get 4 (.hex (hexRegLc k.index)) = Bytes.norm 4 ((loopCount i imm).eval t) ∧
      (∀ g, k.lpcfg = some g → (loopTemps (execAll (loopCode pc i k imm) t)).lpcfg = BitVec.ofNat 2 g) ∧
      ((k.index = 0 → t.get 1 (.hex hexRegUsrLpcfg) < 4) →
        usrRest (execAll (loopCode pc i k imm) t) = usrRest t) ∧
      (k.pipelined = true → (execAll (loopCode pc i k imm) t).temp hexRegP3 0 = 0) := by
  have hindex : k.index = 0 ∨ k.index = 1 := by
    cases k with
    | loop1 => exact .inr rfl
    | _ => exact .inl rfl
  obtain ⟨hlc, -, hcfg, husr⟩ := set_loop hindex ((loopCount i imm).eval t)
    ((loopStart pc i).eval (t.setReg 4 (hexRegLc k.index) ((loopCount i imm).eval t))) t
  have hlt := (congrArg (· < (4 : BitVec 64)) hcfg).mpr
  cases k with
  | loop1 => exact ⟨hlc, nofun, fun _ => husr, nofun⟩
  | loop0 =>
    obtain ⟨hlc', hcfg', husr'⟩ := set_config (g := 0) (by decide) _
    exact ⟨hlc'.trans hlc, fun g hg => Option.some.inj hg ▸ hcfg',
      fun h => (husr' (hlt (h rfl))).trans husr, nofun⟩
  | sp1loop0 =>
    obtain ⟨hlc', hcfg', husr'⟩ := set_config (g := 1) (by decide) _
    exact ⟨hlc'.trans hlc, fun g hg => Option.some.inj hg ▸ hcfg',
      fun h => (husr' (hlt (h rfl))).trans husr, fun _ => rfl⟩
  | sp2loop0 =>
    obtain ⟨hlc', hcfg', husr'⟩ := set_config (g := 2) (by decide) _
    exact ⟨hlc'.trans hlc, fun g hg => Option.some.inj hg ▸ hcfg',
      fun h => (husr' (hlt (h rfl))).trans husr, fun _ => rfl⟩
  | sp3loop0 =>
    obtain ⟨hlc', hcfg', husr'⟩ := set_config (g := 3) (by decide) _
    exact ⟨hlc'.trans hlc, fun g hg => Option.some.inj hg ▸ hcfg',
      fun h => (husr' (hlt (h rfl))).trans husr, fun _ => rfl⟩

theorem eval_loopCount {s s' : PhysState} (h : s'.reg = s.reg) :
    (loopCount i imm).eval s' = (loopCount i imm).eval s := by
  cases imm with
  | true => rfl
  | false =>
    exact congrArg (fun f : Nat → BitVec 8 => Bytes.join (fun j => f (regBase (mapRegNum .R (i.reg 0)) + j)) 4) h

variable {h : HashOrder} {pc : BitVec 32} {cof : Bool} {pre post : List Insn} {s : PhysState}

/-- **A packet that sets up a loop** leaves the count, the start, the configuration and a clear `P3`, and of `USR`
nothing else where its high bits were zero. -/
theorem setup_packet (hi : i.opcode.toOpcodeRow = Opcodes.loopRow k imm) (hpre : ∀ j ∈ pre, j.Spares (ownBytes k.index))
    (hpost : ∀ j ∈ post, j.Spares (ownBytes k.index)) :
    (loopRegs (afterPacket h (pc.setWidth 64) cof pre i post s)).lc k.index =
        ((loopCount i imm).eval (beforeInsn (pc.setWidth 64) cof pre i post s)).setWidth 32 ∧
      (afterPacket h (pc.setWidth 64) cof pre i post s).get 4 (.hex (hexRegSa k.index)) = i.branchTarget pc ∧
      (∀ g, k.lpcfg = some g →
        (loopRegs (afterPacket h (pc.setWidth 64) cof pre i post s)).lpcfg = BitVec.ofNat 2 g) ∧
      ((k.index = 0 → usrHigh s = 0) → usrRest (afterPacket h (pc.setWidth 64) cof pre i post s) = usrRest s) ∧
      (k.pipelined = true → (afterPacket h (pc.setWidth 64) cof pre i post s).reg p3Byte = 0) := by
  have hindex : k.index = 0 ∨ k.index = 1 := by
    cases k with
    | loop1 => exact .inr rfl
    | _ => exact .inl rfl
  let ctx := beforeCtx (pc.setWidth 64) pre
  let t := beforeInsn (pc.setWidth 64) cof pre i post s
  let t' := execAll ((lift (pc.setWidth 64) i pre.length ctx).decls.map (IlInsn.map LReg.index)) t
  have htreg : t'.reg = t.reg := reg_decls t
  have hbefore : ∀ b ∈ ownBytes k.index, t'.reg b = s.reg b := fun b hb => by
    rw [htreg]
    exact reg_beforeInsn hpre hb
  have hafter : afterInsn (pc.setWidth 64) cof pre i post s = execAll (loopCode (pc.setWidth 64) i k imm) t' := by
    rw [afterInsn, run_block_decls, run_loopSetup hi]
  have hdest : ∀ d ∈ (lift (pc.setWidth 64) i pre.length ctx).ctx.regs,
      d ∈ ctx.regs ∨ k.pipelined = true ∧ d = p3Dest := fun d hd =>
    (mem_lift_ctx hd).imp id fun ⟨_, hp⟩ => place_setup hi hp
  have hreg : ∀ b ∈ loopBytes k.index ++ usrBytes, (afterPacket h (pc.setWidth 64) cof pre i post s).reg b =
      (execAll (loopCode (pc.setWidth 64) i k imm) t').reg b := fun b hb => by
    have hne : b ≠ p3Byte := by
      rintro rfl
      rcases hindex with hk | hk <;> rw [hk] at hb <;> exact absurd hb (by decide)
    rw [← hafter]
    refine reg_afterPacket hpre hpost (List.mem_append_right _ hb) fun d hd => ?_
    rcases hdest d hd with hd | ⟨-, rfl⟩
    · exact .inl hd
    · exact .inr (p3Dest_spares hne)
  obtain ⟨hlc, hcfg, husr, hp3⟩ := @exec_loopCode k imm i (pc.setWidth 64) t'
  have hloop := get_loop_congr hindex fun b hb => hreg b (List.mem_append_left _ hb)
  have husr' := get_usr_congr fun b hb => hreg b (List.mem_append_right _ hb)
  refine ⟨?_, hloop.2.trans (sa_loopCode pc i k imm t'), fun g hg => ?_, fun hhigh => ?_, fun hpipe => ?_⟩
  · have hlc' : (loopRegs (afterPacket h (pc.setWidth 64) cof pre i post s)).lc k.index =
        ((afterPacket h (pc.setWidth 64) cof pre i post s).get 4 (.hex (hexRegLc k.index))).setWidth 32 := by
      rcases hindex with hk | hk <;> rw [hk] <;> rfl
    rw [hlc', hloop.1, hlc, eval_loopCount htreg, Bytes.norm, BitVec.setWidth_setWidth_of_le _ (by decide),
      BitVec.setWidth_setWidth_of_le _ (by decide)]
  · exact (congrArg (BitVec.setWidth 2) husr'.2).trans (hcfg g hg)
  · have hold := get_usr_congr fun b hb => hbefore b (List.mem_append_right _ (List.mem_append_right _ hb))
    rw [usrRest_congr_get husr'.1, husr fun hk => hold.2 ▸ lpcfg_lt (hhigh hk), usrRest_congr_get hold.1]
  · have hk0 : k.index = 0 := by
      cases k with
      | loop1 => cases hpipe
      | _ => rfl
    have hbyte : p3Byte ∈ ownBytes k.index := by
      rw [hk0]
      exact List.mem_cons_self
    have hmem : p3Dest ∈ (lift (pc.setWidth 64) i pre.length ctx).ctx.regs := by
      have hplace : ∃ q ∈ i.places, q.2 = .dest true 1 hexRegP3 := by
        rw [← List.mem_map, places_setup hi, hpipe]
        exact List.mem_append_right _ List.mem_cons_self
      obtain ⟨⟨name, p⟩, hp, rfl⟩ := hplace
      have hs : i.opcode.supported = true := by
        rw [hi]
        rfl
      obtain ⟨d, hd, hreg⟩ := List.mem_map.1 (@registered_of_place (pc.setWidth 64) _ pre.length ctx hs _ _ _ _ hp)
      rcases hdest d hd with hd | ⟨-, rfl⟩
      · exact absurd (List.mem_map.2 ⟨d, hd, hreg⟩) (not_mem_beforeCtx hpre hbyte)
      · exact hd
    refine (reg_afterPacket_dest hpre hpost hmem (by decide) hbyte fun e he hne => ?_).trans ?_
    · exact (hdest e he).imp id fun he => absurd he.2 hne
    · rw [hafter]
      exact hp3 hpipe

end SetUp
end Hex
