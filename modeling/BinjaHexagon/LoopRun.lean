import BinjaHexagon.LoopPacket
import BinjaHexagon.PacketDb
import BinjaHexagon.ProgramRun
/-!
# LoopRun — a hardware loop from its set-up to its last pass

A run sets the loop up, goes through packets of the body, and comes to the packet that ends the loop.  Where counts stay
below 2^31 and bits 10 to 15 of `USR` are zero, the emitted IL makes the passes of the reference.
-/
namespace Hex

section Packets

variable (h : HashOrder) (callee : BitVec 64 → PhysState → PhysState) (p : PacketAt) (a : ProgState)

/-- No branch but that of the last instruction is due. -/
def PacketAt.LeavesByLast : Prop := firstDue (p.due a) 0 p.insns.dropLast = none

variable {h callee p a}
variable {e : EndKind} {rest : List Insn} {i : Insn}

theorem control_end (hi : i.opcode.toOpcodeRow = e.opcode.toOpcodeRow) (hpart : i.part1 = false) (pc : BitVec 64)
    (n : Nat) : i.branches = true ∧ i.isCondJump = true ∧
      i.control pc n = .jump (.register 4 (.temp (200 + n))) := by
  obtain ⟨⟨row, _, _, _, _⟩, regno, immed, part1, ext, _⟩ := i
  dsimp only at hi hpart
  subst hi hpart
  cases e <;> exact ⟨rfl, rfl, rfl⟩

/-- The end of a loop is due where its behaviour reached the branch. -/
theorem due_end (his : p.insns = rest ++ [i]) : p.due a rest.length =
    reachedBranch ((lift (a.addr.setWidth 64) i rest.length (beforeCtx (a.addr.setWidth 64) rest)).block.log bodySem
      (beforeInsn (a.addr.setWidth 64) p.cof rest i [] a.st)) := by
  have hlen : (insnLogs (liftInsns (a.addr.setWidth 64) 0 rest .empty)
      (execAll (initFlags p.cof (rest ++ [i])) a.st)).length = rest.length := by
    rw [length_insnLogs, length_liftInsns]
  rw [PacketAt.due, his, liftInsns_one, insnLogs_append, List.getD_eq_getElem?_getD,
    List.getElem?_append_right (Nat.le_of_eq hlen), hlen, Nat.sub_self]
  rfl

/-- **Where an end packet leaves to**: the loop's start if its branch is due, or behind the packet. -/
theorem next_end (hi : i.opcode.toOpcodeRow = e.opcode.toOpcodeRow) (hpart : i.part1 = false)
    (his : p.insns = rest ++ [i]) (hleave : p.LeavesByLast a) :
    (p.next h callee a).st = afterPacket h (a.addr.setWidth 64) p.cof rest i [] a.st ∧
    (p.next h callee a).addr =
      if p.due a rest.length then
        ((afterPacket h (a.addr.setWidth 64) p.cof rest i [] a.st).get 4 (.temp (200 + rest.length))).setWidth 32
      else a.addr + BitVec.ofNat 32 p.size := by
  obtain ⟨hb, hc, hctl⟩ := control_end hi hpart (a.addr.setWidth 64) rest.length
  have hfirst : firstDue (p.due a) 0 p.insns = if p.due a rest.length then some (rest.length, i) else none := by
    have hrest : firstDue (p.due a) 0 rest = none := by
      have := hleave
      rwa [PacketAt.LeavesByLast, his, List.dropLast_concat] at this
    rw [his, firstDue_append, hrest, Option.none_or, Nat.zero_add, firstDue, hb, hc]
    rfl
  have hwritten : p.written h a = afterPacket h (a.addr.setWidth 64) p.cof rest i [] a.st := by
    rw [PacketAt.written, his]
    rfl
  unfold PacketAt.next PacketAt.control
  rw [hfirst, hwritten]
  cases p.due a rest.length with
  | true =>
    simp only [if_true, Option.map_some, hctl]
    exact ⟨rfl, rfl⟩
  | false => exact ⟨rfl, rfl⟩

theorem firstDue_some {due : Nat → Bool} : ∀ {is : List Insn} {n : Nat} {w : Nat × Insn},
    firstDue due n is = some w → w.2 ∈ is ∧ w.2.branches = true
  | [], _, _, h => by cases h
  | i :: is, n, w, h => by
    unfold firstDue at h
    split at h
    · obtain rfl := Option.some.inj h
      rename_i hb
      exact ⟨List.mem_cons_self, (Bool.and_eq_true_iff.1 hb).1⟩
    · obtain ⟨hmem, hb⟩ := firstDue_some h
      exact ⟨List.mem_cons_of_mem _ hmem, hb⟩

/-- A packet without calls leaves the state that it wrote back. -/
theorem next_st_of_no_call (hcall : ∀ j ∈ p.insns, j.isCall = false) : (p.next h callee a).st = p.written h a := by
  unfold PacketAt.next PacketAt.control
  cases hf : firstDue (p.due a) 0 p.insns with
  | none => rfl
  | some w =>
    obtain ⟨hmem, hb⟩ := firstDue_some hf
    have hno := hcall w.2 hmem
    have hjump : w.2.isJump = true := by
      simp only [Insn.branches, hno, Bool.or_false, Bool.and_eq_true] at hb
      exact hb.2
    rw [Option.map_some, Insn.control, hno, hjump]
    cases w.2.isIndirect with
    | false => rfl
    | true =>
      simp only [Bool.and_true, if_true]
      split <;> rfl

end Packets

section Loop

variable (prog : Program)

/-- A loop of a program: the packet that sets it up and the one that ends it.  The other instructions of the two leave
its registers, `USR` and `P3` alone, and the set-up's packet calls nothing. -/
structure HwLoop where
  kind : Opcodes.LoopKind
  imm : Bool
  setupAt : BitVec 32
  setupPacket : PacketAt
  setup_at : prog setupAt = some setupPacket
  before : List Insn
  setup : Insn
  after : List Insn
  setup_insns : setupPacket.insns = before ++ setup :: after
  setup_row : setup.opcode.toOpcodeRow = Opcodes.loopRow kind imm
  setup_spares : ∀ j ∈ before ++ after, j.Spares (ownBytes kind.index)
  setup_calls : ∀ j ∈ setupPacket.insns, j.isCall = false
  ends : EndKind
  closes : ends.ends kind.index = true
  endAt : BitVec 32
  endPacket : PacketAt
  end_at : prog endAt = some endPacket
  rest : List Insn
  last : Insn
  end_insns : endPacket.insns = rest ++ [last]
  last_row : last.opcode.toOpcodeRow = ends.opcode.toOpcodeRow
  last_part1 : last.part1 = false
  rest_spares : ∀ j ∈ rest, j.Spares ends.bytes
  start_ne : setupAt + (setup.imm 0 &&& ~~~3) ≠ endAt + BitVec.ofNat 32 endPacket.size

variable {prog}

namespace HwLoop

variable (l : HwLoop prog)

def index : Nat := l.kind.index

def start : BitVec 32 := l.setupAt + (l.setup.imm 0 &&& ~~~3)

/-- Behind the end. -/
def exit : BitVec 32 := l.endAt + BitVec.ofNat 32 l.endPacket.size

/-- The count that the set-up finds in its operand, from the packet's entry state `s`. -/
def count (s : PhysState) : BitVec 32 :=
  ((loopCount l.setup l.imm).eval
    (beforeInsn (l.setupAt.setWidth 64) l.setupPacket.cof l.before l.setup l.after s)).setWidth 32

/-- The loop's end is reached; an outer loop's only when the inner one is over. -/
def AtEnd (a : ProgState) : Prop := a.addr = l.endAt ∧ l.ends.Decides l.index (loopRegs a.st)

/-- A packet of an inner loop: its set-up, or its end while it goes on. -/
inductive Inner (p : PacketAt) (a : ProgState) : Prop
  | setup (kind : Opcodes.LoopKind) (imm : Bool) (pre post : List Insn) (i : Insn) (hkind : kind.index = 0)
      (his : p.insns = pre ++ i :: post) (hi : i.opcode.toOpcodeRow = Opcodes.loopRow kind imm)
      (hspares : ∀ j ∈ pre ++ post, j.Spares (ownBytes 0 ++ ownBytes 1))
      (hcall : ∀ j ∈ p.insns, j.isCall = false)
  | ending (e : EndKind) (rest : List Insn) (i : Insn) (he : e.ends 0 = true) (his : p.insns = rest ++ [i])
      (hi : i.opcode.toOpcodeRow = e.opcode.toOpcodeRow) (hpart : i.part1 = false)
      (hspares : ∀ j ∈ rest, j.Spares (ownBytes 0 ++ ownBytes 1)) (hleave : p.LeavesByLast a)
      (hgo : e = .endloop01 → 1 < (loopRegs a.st).lc0)

variable (h : HashOrder) (callee : BitVec 64 → PhysState → PhysState) (ok : ProgState → Prop)

/-- A step of the body: it leaves the loop's bytes alone, or belongs to a loop 0 inside this loop 1. -/
def BodyStep (a b : ProgState) : Prop :=
  ok a ∧ ProgStep h callee prog a b ∧ ¬ l.AtEnd a ∧
    ((∀ x ∈ ownBytes l.index, b.st.reg x = a.st.reg x) ∨
      l.index = 1 ∧ ∃ p, prog a.addr = some p ∧ Inner p a)

/-- The end of a pass.  An inner loop does not start where the outer one does. -/
def EndStep (a b : ProgState) : Prop :=
  ok a ∧ ProgStep h callee prog a b ∧ l.AtEnd a ∧ l.endPacket.LeavesByLast a ∧
    (l.index = 0 → l.ends = .endloop01 → (a.st.get 4 (.hex hexRegSa1)).setWidth 32 ≠ l.start)

/-- From the set-up's entry state `s`, which led to `b₀`: after `m` passes that went back the run is at a state. -/
inductive Run (s : PhysState) (b₀ : ProgState) : Nat → ProgState → Prop
  | setUp (hok : ok ⟨l.setupAt, s⟩) (hstep : ProgStep h callee prog ⟨l.setupAt, s⟩ b₀) : Run s b₀ 0 b₀
  | body {m : Nat} {a b : ProgState} (hrun : Run s b₀ m a) (hstep : l.BodyStep h callee ok a b) : Run s b₀ m b
  | back {m : Nat} {a b : ProgState} (hrun : Run s b₀ m a) (hend : l.EndStep h callee ok a b)
      (hback : b.addr = l.start) : Run s b₀ (m + 1) b

/-- What holds all along the run. -/
structure Holds (s : PhysState) (b₀ : ProgState) (m : Nat) (a : PhysState) : Prop where
  count : LoopRegs.Counted (l.count s) m ((loopRegs a).lc l.index)
  start : a.get 4 (.hex (hexRegSa l.index)) = l.start.setWidth 64
  usr : usrRest a = usrRest s
  countdown : l.index = 0 → LoopRegs.CountedDown (l.kind.lpcfg.getD 0) (loopRegs b₀.st).p3 m (loopRegs a)

/-- How pass `m + 1` ends. -/
structure PassEnds (s : PhysState) (m : Nat) (a b : ProgState) : Prop where
  back : b.addr = l.start ↔ m + 1 < max 1 (l.count s).toNat
  exit : b.addr ≠ l.start → b.addr =
    if l.index = 0 ∧ l.ends = .endloop01 ∧ 1 < (loopRegs a.st).lc1 then (a.st.get 4 (.hex hexRegSa1)).setWidth 32
    else l.exit
  regs : l.ends.Agree (loopRegs b.st) (l.ends.reference (loopRegs a.st)).1
  p3 : l.index = 0 → (loopRegs b.st).p3 = if m + 1 = l.kind.lpcfg.getD 0 then 0xff else (loopRegs a.st).p3
  usr : usrRest b.st = usrRest s

/-- The loop runs as the reference does: `P3` is clear where it is pipelined, every state of the run is in step with the
reference's counts, and every pass ends as its pass does. -/
def RunsRight : Prop := ∀ s b₀, ok ⟨l.setupAt, s⟩ → ProgStep h callee prog ⟨l.setupAt, s⟩ b₀ →
  (l.kind.pipelined = true → (loopRegs b₀.st).p3 = 0) ∧ ∀ m a, l.Run h callee ok s b₀ m a →
    l.Holds s b₀ m a.st ∧ ∀ b, l.EndStep h callee ok a b → l.PassEnds s m a b

end HwLoop

/-- The counts of the loops that end are below 2^31, and bits 10 to 15 of `USR` are zero where `LPCFG` is written. -/
def Fine (prog : Program) (a : ProgState) : Prop := ∀ p, prog a.addr = some p → ∀ i ∈ p.insns,
  ((i.attrib .implicitWritesSa0 || i.attrib .hwloop0End) = true → usrHigh a.st = 0) ∧
  (i.attrib .hwloop0End = true → ((loopRegs a.st).lc 0).toNat < 2 ^ 31) ∧
  (i.attrib .hwloop1End = true → ((loopRegs a.st).lc 1).toNat < 2 ^ 31)

section Steps

variable {h : HashOrder} {callee : BitVec 64 → PhysState → PhysState} {a b : ProgState} {p : PacketAt}

theorem Fine.smallAt {e : EndKind} {i : Insn} (hf : Fine prog a) (hp : prog a.addr = some p) (hmem : i ∈ p.insns)
    (hi : i.opcode.toOpcodeRow = e.opcode.toOpcodeRow) : e.SmallAt a.st := by
  obtain ⟨husr, h0, h1⟩ := hf p hp i hmem
  have hattr : ∀ t, i.attrib t = e.opcode.toOpcodeRow.attrib t := fun t => by rw [Insn.attrib, hi]
  rw [hattr, hattr] at husr
  rw [hattr] at h0 h1
  refine ⟨fun k hk => ?_, fun he => husr ?_⟩
  · rcases EndKind.ends_cases hk with ⟨rfl, he⟩ | ⟨rfl, he⟩
    · refine h0 ?_
      cases e with
      | endloop1 => exact absurd rfl he
      | endloop0 | endloop01 => rfl
    · refine h1 ?_
      cases e with
      | endloop0 => exact absurd rfl he
      | endloop1 | endloop01 => rfl
  · cases e with
    | endloop1 => cases he
    | endloop0 | endloop01 => rfl

theorem Fine.usrHigh_setup {kind : Opcodes.LoopKind} {imm : Bool} {i : Insn} (hf : Fine prog a)
    (hp : prog a.addr = some p) (hmem : i ∈ p.insns) (hi : i.opcode.toOpcodeRow = Opcodes.loopRow kind imm)
    (hk : kind.index = 0) : usrHigh a.st = 0 := by
  refine (hf p hp i hmem).1 ?_
  have hattr : i.attrib .implicitWritesSa0 = (Opcodes.loopRow kind imm).attrib .implicitWritesSa0 := by
    rw [Insn.attrib, hi]
  rw [hattr]
  cases kind with
  | loop1 => cases hk
  | _ => rfl

end Steps

namespace HwLoop

variable {l : HwLoop prog} {h : HashOrder} {callee : BitVec 64 → PhysState → PhysState} {a b b₀ : ProgState}
  {s : PhysState} {m : Nat}

theorem index_cases (l : HwLoop prog) : l.index = 0 ∨ l.index = 1 := by
  unfold index
  cases l.kind with
  | loop1 => exact .inr rfl
  | _ => exact .inl rfl

theorem holds_setUp (hf : Fine prog ⟨l.setupAt, s⟩) (hstep : ProgStep h callee prog ⟨l.setupAt, s⟩ b₀) :
    (l.kind.pipelined = true → (loopRegs b₀.st).p3 = 0) ∧ l.Holds s b₀ 0 b₀.st := by
  obtain ⟨p, hp, rfl⟩ := progStep_iff.1 hstep
  obtain rfl : l.setupPacket = p := Option.some.inj (l.setup_at.symm.trans hp)
  have hst : (l.setupPacket.next h callee ⟨l.setupAt, s⟩).st =
      afterPacket h (l.setupAt.setWidth 64) l.setupPacket.cof l.before l.setup l.after s := by
    rw [next_st_of_no_call l.setup_calls, PacketAt.written, l.setup_insns]
    rfl
  have hmem : l.setup ∈ l.setupPacket.insns := by
    rw [l.setup_insns]
    simp
  obtain ⟨hlc, hsa, hcfg, husr, hp3⟩ := @setup_packet _ _ _ h l.setupAt l.setupPacket.cof _ _ s
    l.setup_row (fun j hj => l.setup_spares j (List.mem_append_left _ hj))
    fun j hj => l.setup_spares j (List.mem_append_right _ hj)
  rw [hst]
  refine ⟨hp3, ?_, hsa, husr fun hk => hf.usrHigh_setup hp hmem l.setup_row hk, fun hk => ?_⟩
  · rw [index, hlc]
    exact LoopRegs.counted_zero _
  · have hg : ∃ g, g < 4 ∧ l.kind.lpcfg = some g := by
      revert hk
      unfold index
      cases l.kind with
      | loop1 => exact nofun
      | loop0 => exact fun _ => ⟨0, by decide, rfl⟩
      | sp1loop0 => exact fun _ => ⟨1, by decide, rfl⟩
      | sp2loop0 => exact fun _ => ⟨2, by decide, rfl⟩
      | sp3loop0 => exact fun _ => ⟨3, by decide, rfl⟩
    obtain ⟨g, hg4, hg⟩ := hg
    rw [hg, Option.getD_some]
    refine ⟨?_, ?_⟩
    · rw [hcfg g hg, BitVec.toNat_ofNat]
      omega
    · rw [if_neg (by omega), hst]

/-- What a packet of the body keeps. -/
structure Keeps (k : Nat) (s s' : PhysState) : Prop where
  lc : (loopRegs s').lc k = (loopRegs s).lc k
  sa : s'.get 4 (.hex (hexRegSa k)) = s.get 4 (.hex (hexRegSa k))
  usr : usrRest s' = usrRest s
  lpcfg : k = 0 → (loopRegs s').lpcfg = (loopRegs s).lpcfg
  p3 : k = 0 → (loopRegs s').p3 = (loopRegs s).p3

theorem lc_congr {k : Nat} (hk : k = 0 ∨ k = 1) {s s' : PhysState}
    (h : s'.get 4 (.hex (hexRegLc k)) = s.get 4 (.hex (hexRegLc k))) : (loopRegs s').lc k = (loopRegs s).lc k := by
  have hlc := congrArg (BitVec.setWidth 32) h
  rcases hk with rfl | rfl <;> exact hlc

theorem Keeps.ofBytes {k : Nat} (hk : k = 0 ∨ k = 1) {s s' : PhysState} (h : ∀ x ∈ ownBytes k, s'.reg x = s.reg x) :
    Keeps k s s' := by
  obtain ⟨hlc, hsa⟩ := get_loop_congr hk fun b hb => h b (List.mem_append_right _ (List.mem_append_left _ hb))
  obtain ⟨husr, hcfg⟩ := get_usr_congr fun b hb => h b (List.mem_append_right _ (List.mem_append_right _ hb))
  refine ⟨lc_congr hk hlc, hsa, usrRest_congr_get husr, fun _ => congrArg (BitVec.setWidth 2) hcfg, ?_⟩
  rintro rfl
  exact h p3Byte List.mem_cons_self

theorem Holds.keep {s' s'' : PhysState} (hh : l.Holds s b₀ m s') (hk : Keeps l.index s' s'') : l.Holds s b₀ m s'' := by
  refine ⟨hk.lc ▸ hh.count, hk.sa.trans hh.start, hk.usr.trans hh.usr, fun h0 => ?_⟩
  obtain ⟨hcfg, hp3⟩ := hh.countdown h0
  exact ⟨hk.lpcfg h0 ▸ hcfg, hk.p3 h0 ▸ hp3⟩

theorem reg_written_spares {p : PacketAt} {B : List Nat} {x : Nat} (hs : ∀ j ∈ p.insns, j.Spares B) (hx : x ∈ B) :
    (p.written h a).reg x = a.st.reg x := by
  rw [PacketAt.written, reg_packetState_spares hs hx, reg_initFlags]

/-- **A loop 0 inside a loop 1 keeps the outer loop's registers**, and of `USR` all but its own field. -/
theorem Inner.keeps {p : PacketAt} (hi : Inner p a) (hf : Fine prog a) (hp : prog a.addr = some p) :
    Keeps 1 a.st (p.next h callee a).st := by
  cases hi with
  | setup kind imm pre post i hkind his hrow hspares hcall =>
    have hmem : i ∈ p.insns := by
      rw [his]
      simp
    have hown : ∀ {B : List Nat}, (∀ x ∈ B, x ∈ ownBytes 0 ++ ownBytes 1) → ∀ j ∈ pre ++ post, j.Spares B :=
      fun hB j hj => (hspares j hj).mono hB
    have hown0 : ∀ j ∈ pre ++ post, j.Spares (ownBytes kind.index) := hown fun x hx => by
      rw [hkind] at hx
      exact List.mem_append_left _ hx
    have hall : ∀ j ∈ p.insns, j.Spares (loopBytes 1) := fun j hj => by
      rw [his, List.mem_append, List.mem_cons] at hj
      have hother : j ∈ pre ++ post → j.Spares (loopBytes 1) := hown (fun x hx => List.mem_append_right _
        (List.mem_append_right _ (List.mem_append_left _ hx))) j
      rcases hj with hj | rfl | hj
      · exact hother (List.mem_append_left _ hj)
      · refine spares_setup hrow ?_
        rw [hkind]
        decide
      · exact hother (List.mem_append_right _ hj)
    have hst : (p.next h callee a).st = afterPacket h (a.addr.setWidth 64) p.cof pre i post a.st := by
      rw [next_st_of_no_call hcall, PacketAt.written, his]
      rfl
    have hbytes : ∀ x ∈ loopBytes 1, (p.next h callee a).st.reg x = a.st.reg x := fun x hx => by
      rw [next_st_of_no_call hcall]
      exact reg_written_spares hall hx
    obtain ⟨hlc, hsa⟩ := get_loop_congr (.inr rfl) hbytes
    obtain ⟨-, -, -, husr, -⟩ := @setup_packet _ _ _ h a.addr p.cof _ _ a.st hrow
      (fun j hj => hown0 j (List.mem_append_left _ hj)) fun j hj => hown0 j (List.mem_append_right _ hj)
    refine ⟨lc_congr (.inr rfl) hlc, hsa, ?_, nofun, nofun⟩
    rw [hst]
    exact husr fun _ => hf.usrHigh_setup hp hmem hrow hkind
  | ending e rest i he his hrow hpart hspares hleave hgo =>
    have hmem : i ∈ p.insns := by
      rw [his]
      simp
    have hsub : ∀ x ∈ e.bytes, x ∈ ownBytes 0 ++ ownBytes 1 := fun x hx => by
      unfold EndKind.bytes at hx
      rw [if_pos he, List.mem_append] at hx
      rcases hx with hx | hx
      · exact List.mem_append_left _ hx
      · split at hx
        · exact List.mem_append_right _ hx
        · exact absurd hx List.not_mem_nil
    obtain ⟨hst, -⟩ := @next_end h callee _ _ _ _ _ hrow hpart his hleave
    obtain ⟨hagree, husr, -⟩ := @end_packet _ h (a.addr.setWidth 64) p.cof _ _ _ hrow
      (fun j hj => (hspares j hj).mono hsub) (hf.smallAt hp hmem hrow)
    rw [← hst] at hagree husr
    have hrest : ∀ {B : List Nat}, (∀ x ∈ B, x ∈ loopBytes 1) → (i.Spares B) → ∀ x ∈ B,
        (p.next h callee a).st.reg x = a.st.reg x := fun {B} hB hiB x hx => by
      have hall : ∀ j ∈ p.insns, j.Spares B := fun j hj => by
        rw [his, List.mem_append, List.mem_singleton] at hj
        rcases hj with hj | rfl
        · exact (hspares j hj).mono fun y hy => List.mem_append_right _
            (List.mem_append_right _ (List.mem_append_left _ (hB y hy)))
        · exact hiB
      have hwritten : p.written h a = afterPacket h (a.addr.setWidth 64) p.cof rest i [] a.st := by
        rw [PacketAt.written, his]
        rfl
      rw [hst, ← hwritten]
      exact reg_written_spares hall hx
    cases e with
    | endloop1 => cases he
    | endloop0 =>
      obtain ⟨hlc, hsa⟩ := get_loop_congr (.inr rfl) (hrest (fun x hx => hx) (EndKind.spares hrow (by decide)))
      exact ⟨lc_congr (.inr rfl) hlc, hsa, husr, nofun, nofun⟩
    | endloop01 =>
      have hsa : (p.next h callee a).st.get 4 (.hex hexRegSa1) = a.st.get 4 (.hex hexRegSa1) := by
        have hbytes := hrest (B := List.range' (regBase hexRegSa1) 4) (by decide) (EndKind.spares hrow (by decide))
        exact State.get_congr fun j hj => hbytes _ (List.mem_range'_1.2 (by omega))
      have hback := EndKind.reference_loop0 (e := .endloop01) nofun (hgo rfl)
      refine ⟨(hagree.lc 1 rfl).trans ?_, hsa, husr, nofun, nofun⟩
      rw [hback]
      exact LoopRegs.countdown_lc1

theorem Holds.body {s' : ProgState} (hh : l.Holds s b₀ m s'.st) (hstep : l.BodyStep h callee (Fine prog) s' b) :
    l.Holds s b₀ m b.st := by
  obtain ⟨hf, hprog, -, hquiet | ⟨hk, p, hp, hinner⟩⟩ := hstep
  · exact hh.keep (.ofBytes l.index_cases hquiet)
  · obtain ⟨q, hq, rfl⟩ := progStep_iff.1 hprog
    obtain rfl := Option.some.inj (hp.symm.trans hq)
    refine hh.keep ?_
    rw [hk]
    exact hinner.keeps hf hp

/-- The end of a pass, as the reference has it: the registers, and where control goes. -/
theorem EndStep.reference (hend : l.EndStep h callee (Fine prog) a b) :
    l.ends.Agree (loopRegs b.st) (l.ends.reference (loopRegs a.st)).1 ∧ usrRest b.st = usrRest a.st ∧
      b.st.get 4 (.hex (hexRegSa l.index)) = a.st.get 4 (.hex (hexRegSa l.index)) ∧
      b.addr = match (l.ends.reference (loopRegs a.st)).2 with
        | some k => (a.st.get 4 (.hex (hexRegSa k))).setWidth 32
        | none => l.exit := by
  obtain ⟨hf, hprog, ⟨haddr, hdecides⟩, hleave, -⟩ := hend
  obtain ⟨p, hp, rfl⟩ := progStep_iff.1 hprog
  obtain rfl : l.endPacket = p := Option.some.inj (l.end_at.symm.trans (haddr ▸ hp))
  have hmem : l.last ∈ l.endPacket.insns := by
    rw [l.end_insns]
    simp
  obtain ⟨hst, hnext⟩ := @next_end h callee _ _ _ _ _ l.last_row l.last_part1 l.end_insns hleave
  obtain ⟨hagree, husr, hdest, hreached⟩ := @end_packet _ h (a.addr.setWidth 64) l.endPacket.cof _ _ _
    l.last_row l.rest_spares (hf.smallAt hp hmem l.last_row)
  rw [← due_end l.end_insns] at hreached
  rw [← hst] at hagree husr hdest
  have hback : ∀ k, (l.ends.reference (loopRegs a.st)).2 = some k → l.ends.ends k = true := fun k hk => by
    revert hk
    cases l.ends with
    | endloop0 =>
      simp only [EndKind.reference]
      split
      · exact fun hk => Option.some.inj hk ▸ rfl
      · exact fun hk => by cases hk
    | endloop1 =>
      simp only [EndKind.reference]
      split
      · exact fun hk => Option.some.inj hk ▸ rfl
      · exact fun hk => by cases hk
    | endloop01 =>
      simp only [EndKind.reference]
      split
      · exact fun hk => Option.some.inj hk ▸ rfl
      · split
        · exact fun hk => Option.some.inj hk ▸ rfl
        · exact fun hk => by cases hk
  refine ⟨hagree, husr, ?_, ?_⟩
  · have hsa : ∀ j ∈ l.endPacket.insns, j.Spares (List.range' (regBase (hexRegSa l.index)) 4) := fun j hj => by
      rw [l.end_insns, List.mem_append, List.mem_singleton] at hj
      rcases hj with hj | rfl
      · refine (l.rest_spares j hj).mono fun x hx => EndKind.loopBytes_subset hdecides.1 ?_
        have hrange := List.mem_range'_1.1 hx
        exact List.mem_range'_1.2 ⟨hrange.1, by omega⟩
      · refine EndKind.spares l.last_row ?_
        rcases l.index_cases with hk | hk <;> rw [hk] <;> cases l.ends <;> decide
    have hwritten : (l.endPacket.next h callee a).st = l.endPacket.written h a := by
      rw [hst, PacketAt.written, l.end_insns]
      rfl
    refine State.get_congr fun j hj => ?_
    rw [hwritten]
    exact reg_written_spares hsa (List.mem_range'_1.2 (by omega))
  · rw [hnext, hreached]
    cases hk : (l.ends.reference (loopRegs a.st)).2 with
    | none =>
      rw [haddr]
      rfl
    | some k =>
      rw [Option.isSome_some, if_pos rfl, ← hst, hdest k (hback k hk) hk]

/-- **A pass ends as the reference's does.** -/
theorem Holds.passEnds (hh : l.Holds s b₀ m a.st) (hend : l.EndStep h callee (Fine prog) a b) :
    l.PassEnds s m a b ∧ (b.addr = l.start → l.Holds s b₀ (m + 1) b.st) := by
  obtain ⟨hagree, husr, hsa, haddr⟩ := hend.reference
  obtain ⟨-, -, ⟨-, hdecides⟩, -, hdistinct⟩ := hend
  have hlc := (EndKind.reference_decides hdecides).2
  have hstart : (a.st.get 4 (.hex (hexRegSa l.index))).setWidth 32 = l.start := by
    rw [hh.start, BitVec.setWidth_setWidth_of_le _ (by decide), BitVec.setWidth_eq]
  -- Where the pass goes: the start, the start of the loop around it, or on.
  have hgo : 1 < (loopRegs a.st).lc l.index → b.addr = l.start := fun hc => by
    rw [haddr, EndKind.reference_target hdecides, if_pos hc]
    exact hstart
  have hleave : ¬ 1 < (loopRegs a.st).lc l.index → b.addr =
      (if l.index = 0 ∧ l.ends = .endloop01 ∧ 1 < (loopRegs a.st).lc1 then
        (a.st.get 4 (.hex hexRegSa1)).setWidth 32 else l.exit) ∧ b.addr ≠ l.start := fun hc => by
    rw [haddr, EndKind.reference_target hdecides, if_neg hc]
    by_cases hout : l.index = 0 ∧ l.ends = .endloop01 ∧ 1 < (loopRegs a.st).lc1
    · rw [if_pos hout, if_pos hout]
      exact ⟨rfl, hdistinct hout.1 hout.2.1⟩
    · rw [if_neg hout, if_neg hout]
      exact ⟨rfl, fun heq => l.start_ne heq.symm⟩
  have hiff : b.addr = l.start ↔ 1 < (loopRegs a.st).lc l.index :=
    ⟨fun hb => by_contra fun hc => (hleave hc).2 hb, hgo⟩
  have hcount : l.index = 0 → l.ends.ends 0 = true := fun h0 => h0 ▸ hdecides.1
  have hp3 : l.index = 0 → LoopRegs.CountedDown (l.kind.lpcfg.getD 0) (loopRegs b₀.st).p3 (m + 1) (loopRegs b.st) ∧
      (loopRegs b.st).p3 = if m + 1 = l.kind.lpcfg.getD 0 then 0xff else (loopRegs a.st).p3 := fun h0 => by
    obtain ⟨⟨hcfg, hp⟩, hpass⟩ := (hh.countdown h0).succ
    obtain ⟨hrefcfg, hrefp⟩ := EndKind.reference_countdown (r := loopRegs a.st) (hcount h0)
    rw [← hrefcfg, ← hagree.lpcfg (hcount h0)] at hcfg
    rw [← hrefp, ← hagree.p3 (hcount h0)] at hp hpass
    exact ⟨⟨hcfg, hp⟩, hpass⟩
  refine ⟨⟨hiff.trans hh.count.back_iff, fun hne => (hleave fun hc => hne (hgo hc)).1, hagree, fun h0 => (hp3 h0).2,
    husr.trans hh.usr⟩, fun hb => ⟨?_, hsa.trans hh.start, husr.trans hh.usr, fun h0 => (hp3 h0).1⟩⟩
  rw [hagree.lc l.index hdecides.1, hlc, if_pos (hiff.1 hb)]
  exact hh.count.succ (hiff.1 hb)

theorem Run.holds (h₀ : l.Holds s b₀ 0 b₀.st) (hrun : l.Run h callee (Fine prog) s b₀ m a) : l.Holds s b₀ m a.st := by
  induction hrun with
  | setUp => exact h₀
  | body _ hstep ih => exact ih.body hstep
  | back _ hend hback ih => exact (ih.passEnds hend).2 hback

/-- **Hardware-loop runs**: where the counts are below 2^31 and bits 10 to 15 of `USR` zero, the emitted IL makes the
passes of the reference. -/
theorem loop_runs (prog : Program) (l : HwLoop prog) (h : HashOrder)
    (callee : BitVec 64 → PhysState → PhysState) : l.RunsRight h callee (Fine prog) := by
  intro s b₀ hok hstep
  obtain ⟨hp3, h₀⟩ := holds_setUp hok hstep
  refine ⟨hp3, fun m a hrun => ?_⟩
  have hh := hrun.holds h₀
  exact ⟨hh, fun b hend => (hh.passEnds hend).1⟩

end HwLoop
end Loop

section Nop

theorem j2Loop0r_fits : ∀ d ∈ Opcodes.j2Loop0r.regs.zipIdx, [2].getD d.2 0 < d.1.limit := by
  decide

theorem j2Endloop0_fits : ∀ d ∈ Opcodes.j2Endloop0.regs.zipIdx, [].getD d.2 0 < d.1.limit := by
  decide

/-- `{ loop0(#4,r2) }` -/
def setupPacket : PacketAt where
  decoded := ⟨[Opcodes.j2Loop0r.insn [2] [4] j2Loop0r_fits], by decide, by decide⟩
  insns := [Opcodes.j2Loop0r.insn [2] [4] j2Loop0r_fits]
  prepared := rfl
  size := 4

def nopInsn : Insn := Opcodes.a2Nop.insn [] [] Opcodes.a2Nop_fits
def endloopInsn0 : Insn := Opcodes.j2Endloop0.insn [] [] j2Endloop0_fits

/-- `{ nop; nop }:endloop0` -/
def endPacket : PacketAt where
  decoded := ⟨[nopInsn, nopInsn, endloopInsn0], by decide, by decide⟩
  insns := [nopInsn, nopInsn, endloopInsn0]
  prepared := by decide +kernel
  size := 8

def nopProgram : Program := fun a =>
  if a = 0x1000 then some setupPacket else if a = 0x1004 then some endPacket else none

/-- A loop of one packet, at `0x1004`. -/
def nopLoop : HwLoop nopProgram where
  kind := .loop0
  imm := false
  setupAt := 0x1000
  setupPacket := setupPacket
  setup_at := rfl
  before := []
  setup := Opcodes.j2Loop0r.insn [2] [4] j2Loop0r_fits
  after := []
  setup_insns := rfl
  setup_row := rfl
  setup_spares := nofun
  setup_calls := by decide
  ends := .endloop0
  closes := rfl
  endAt := 0x1004
  endPacket := endPacket
  end_at := rfl
  rest := [nopInsn, nopInsn]
  last := endloopInsn0
  end_insns := rfl
  last_row := rfl
  last_part1 := rfl
  rest_spares j hj := by
    obtain rfl : j = nopInsn := by simpa using hj
    exact Insn.spares_of (fun _ _ _ => nofun) nofun
  start_ne := by decide

/-- `R2` and `USR`, and zero elsewhere. -/
def countState (r2 usr : BitVec 32) : PhysState where
  reg a :=
    if 8 ≤ a ∧ a < 12 then Bytes.byte (r2.setWidth 64) (a - 8)
    else if 160 ≤ a ∧ a < 164 then Bytes.byte (usr.setWidth 64) (a - 160) else 0
  temp _ _ := 0
  mem _ := 0

def nopEntry (r2 usr : BitVec 32) : ProgState := ⟨0x1000, countState r2 usr⟩

def afterSetup (r2 usr : BitVec 32) : ProgState := setupPacket.next .added (fun _ s => s) (nopEntry r2 usr)

def afterEnd (a : ProgState) : ProgState := endPacket.next .added (fun _ s => s) a

theorem step_setup (r2 usr : BitVec 32) :
    ProgStep .added (fun _ s => s) nopProgram (nopEntry r2 usr) (afterSetup r2 usr) :=
  progStep_iff.2 ⟨setupPacket, rfl, rfl⟩

theorem end_nop {ok : ProgState → Prop} {a : ProgState} (hok : ok a) (ha : a.addr = 0x1004) :
    nopLoop.EndStep .added (fun _ s => s) ok a (afterEnd a) := by
  have hat : nopProgram a.addr = some endPacket := by
    rw [ha]
    rfl
  exact ⟨hok, progStep_iff.2 ⟨endPacket, hat, rfl⟩, ⟨ha, rfl, nofun⟩, rfl, nofun⟩

theorem fine_end {a : ProgState} (ha : a.addr = 0x1004) (husr : usrHigh a.st = 0)
    (hlc : ((loopRegs a.st).lc 0).toNat < 2 ^ 31) : Fine nopProgram a := by
  intro p hp i hi
  rw [ha] at hp
  obtain rfl : endPacket = p := Option.some.inj hp
  refine ⟨fun _ => husr, fun _ => hlc, fun h1 => ?_⟩
  have hends : i = nopInsn ∨ i = endloopInsn0 := by simpa [endPacket] using hi
  rcases hends with rfl | rfl <;> cases h1

/-- A count of two: the pass goes back once, and then leaves. -/
theorem loop_runs_nop : nopLoop.count (countState 2 0) = 2 ∧ (afterEnd (afterSetup 2 0)).addr = nopLoop.start ∧
    (afterEnd (afterEnd (afterSetup 2 0))).addr = nopLoop.exit := by
  have hcount : nopLoop.count (countState 2 0) = 2 := by decide +kernel
  have hok : Fine nopProgram (nopEntry 2 0) := by
    intro p hp i hi
    obtain rfl : setupPacket = p := Option.some.inj hp
    obtain rfl := List.mem_singleton.1 hi
    exact ⟨fun _ => by decide +kernel, nofun, nofun⟩
  obtain ⟨-, hruns⟩ := HwLoop.loop_runs nopProgram nopLoop .added (fun _ s => s) (countState 2 0) (afterSetup 2 0)
    hok (step_setup 2 0)
  have hfine : Fine nopProgram (afterSetup 2 0) :=
    fine_end (by decide +kernel) (by decide +kernel) (by decide +kernel)
  have hend := end_nop hfine (by decide +kernel)
  have hrun : nopLoop.Run .added (fun _ s => s) (Fine nopProgram) (countState 2 0) (afterSetup 2 0) 0
      (afterSetup 2 0) :=
    .setUp hok (step_setup 2 0)
  have hback := ((hruns 0 _ hrun).2 _ hend).back.2 (by rw [hcount]; decide)
  have hfine' : Fine nopProgram (afterEnd (afterSetup 2 0)) := fine_end hback (by decide +kernel) (by decide +kernel)
  have hlast := (hruns 1 _ (.back hrun hend hback)).2 _ (end_nop hfine' hback)
  refine ⟨hcount, hback, ?_⟩
  rw [hlast.exit fun h => absurd (hlast.back.1 h) (by rw [hcount]; decide)]
  rfl

theorem not_runs_large {ok : ProgState → Prop} (hok : ok (nopEntry 0x80000000 0))
    (hok₀ : ok (afterSetup 0x80000000 0)) : ¬ nopLoop.RunsRight .added (fun _ s => s) ok := by
  intro h
  have hcount : nopLoop.count (countState 0x80000000 0) = 0x80000000 := by decide +kernel
  have hend := end_nop hok₀ (by decide +kernel)
  have hback := (((h _ _ hok (step_setup _ _)).2 0 _ (.setUp hok (step_setup _ _))).2 _ hend).back.2
    (by rw [hcount]; decide)
  exact absurd hback (by decide +kernel)

theorem not_runs_usr {ok : ProgState → Prop} (hok : ok (nopEntry 2 0x400)) :
    ¬ nopLoop.RunsRight .added (fun _ s => s) ok := by
  intro h
  have husr := ((h _ _ hok (step_setup _ _)).2 0 _ (.setUp hok (step_setup _ _))).1.usr
  exact absurd husr (by decide +kernel)

/-- With a count of 2^31 the loop is left after one pass, and with bit 10 of `USR` set the set-up clears it; neither
part of the condition is enough alone. -/
theorem loop_runs_not : ¬ nopLoop.RunsRight .added (fun _ s => s) (fun _ => True) ∧
    ¬ nopLoop.RunsRight .added (fun _ s => s) (fun a => usrHigh a.st = 0) ∧
    ¬ nopLoop.RunsRight .added (fun _ s => s) (fun a => ((loopRegs a.st).lc 0).toNat < 2 ^ 31) :=
  ⟨not_runs_large trivial trivial, not_runs_large (by decide +kernel) (by decide +kernel),
    not_runs_usr (by decide +kernel)⟩

end Nop
end Hex
