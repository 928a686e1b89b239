import BinjaHexagon.IlUtil
import BinjaHexagon.PacketLines
import BinjaHexagon.PrepareBounds
/-!
# PacketReport — what is reported word by word

Every word of a packet is an instruction of length 4.  The last one carries the packet's branches, the first its IL.
-/
namespace Hex

instance (n : Nat) (l : List Int) : Decidable (Within n l) := inferInstanceAs (Decidable (∀ i ∈ l, 0 ≤ i ∧ i < n))

/-- `FillBnInstructionInfo`, with `result.length`. -/
def instructionInfo (input : InsnInfo) : Option (Nat × List InfoBranch) :=
  (fillBnInstructionInfo input).map fun branches => (4, branches)

/-- How `FillBnInstructionLowLevelIL` returns. -/
inductive IlResult where
  | unaligned
  | nothing
  | emitted (len : Nat) (code : List EmitInstr)

/-- `FillBnInstructionLowLevelIL`, from the lookup's result on; an access outside of `Packet::insn` has no outcome. -/
def instructionIl (h : HashOrder) (input : InsnInfo) : Option IlResult :=
  if input.insnAddr % 4 ≠ 0 then some .unaligned
  else if input.insnNum ≠ 0 then some .nothing
  else if Within instructionsMax (prepareAccesses input.pkt.insn) then
    (preparePacketForLifting input.pkt.insn).map fun is => .emitted input.pkt.encodPktSizeInBytes
      (fillBnInstructionLowLevelIl h (BitVec.ofNat 64 input.pc) input.pkt.pktHasCof is)
  else none

/-- The requests at the words of a packet: each answers with length 4, the last with the branches, and the first with
the IL and the packet's length. -/
structure OneReport (h : HashOrder) (db : PacketDb) (start : Nat) (p : Packet) : Prop where
  lengths : ((List.range (p.encodPktSizeInBytes / 4)).map fun _ => 4).sum = p.encodPktSizeInBytes
  info : ∀ j < p.encodPktSizeInBytes / 4, ∃ i, lookup db (start + 4 * j) = some i ∧ instructionInfo i =
    some (4, if j + 1 = p.encodPktSizeInBytes / 4 then packetBranches p (BitVec.ofNat 64 start) else [])
  il : ∃ is, preparePacketForLifting p.insn = some is ∧ ∀ j < p.encodPktSizeInBytes / 4, ∃ i,
    lookup db (start + 4 * j) = some i ∧ instructionIl h i = some (if j = 0 then
      .emitted p.encodPktSizeInBytes (fillBnInstructionLowLevelIl h (BitVec.ofNat 64 start) p.pktHasCof is)
    else .nothing)

section Report

variable {T : DecodeTables} {words : List (BitVec 32)} {p : Packet} {core c : List Insn} {db : PacketDb} {start : Nat}

/-- The lookup at a line is at the last instruction exactly on the last line. -/
theorem PacketOrder.atLastInsn_line (h : PacketOrder T words p core c) {pre post : List (List Insn)} {u : List Insn}
    (hl : LineAt core pre u post) (addr : Nat) :
    atLastInsn ⟨start, p, pre.flatten.length, addr⟩ = decide (post = []) := by
  have hlen := hl.length
  have hlast := hl.last
  unfold atLastInsn
  dsimp only
  rw [h.lastInsn]
  rcases hl.line with ⟨i, rfl, hi⟩ | ⟨b, a, rfl, hb, -⟩
  · have hget : p.insn[pre.flatten.length]? = some i := h.getElem?_line hl (k := 0) (by simp)
    rw [hget, Option.any_some, hi, Bool.false_and, Bool.or_false, decide_eq_decide, ← hlast]
    rw [List.length_singleton] at hlen
    omega
  · have hget : p.insn[pre.flatten.length]? = some b := h.getElem?_line hl (k := 0) (by simp)
    rw [hget, Option.any_some, hb, Bool.true_and, ← Bool.decide_or, decide_eq_decide, ← hlast]
    rw [List.length_cons, List.length_singleton] at hlen
    omega

/-- **Every word is reported once, with length 4, the branches at the last and the IL at the first, exactly when
preparation stays in the array**: the packet is not a lone extender and has room for the compare halves. -/
theorem oneReport_iff (T : DecodeTables) (words : List (BitVec 32)) (p : Packet)
    (h : (decodePacket T words).outcome = .packet p) (hw : InArray (decodePacket T words).writes) (hash : HashOrder)
    (db : PacketDb) (start : Nat) (hdb : StoredAt db start p) (halign : start % 4 = 0)
    (hrows : ∀ i ∈ p.insn, i.opcode.VectorRow) :
    OneReport hash db start p ↔ (∃ i ∈ p.insn, i.isExtender = false) ∧
      p.insn.countP (fun i => !i.isExtender) + p.insn.countP (·.attrib .newcmpjump) ≤ instructionsMax := by
  obtain ⟨core, c, hord⟩ := decodePacket_order h hw
  have hp := hord.paired hrows
  have hmul : 4 * (p.encodPktSizeInBytes / 4) = p.encodPktSizeInBytes := by
    rw [hord.read]
    omega
  have hpos : 0 < p.encodPktSizeInBytes / 4 := by
    obtain ⟨k, hk, -⟩ := decodePacket_span h hw
    have := hk.size
    omega
  rw [← prepareAccesses_within_iff h hord.max]
  constructor
  · rintro ⟨-, -, is, -, hil⟩
    obtain ⟨i, hi, hres⟩ := hil 0 hpos
    obtain ⟨pre, u, post, hl, hpre, -⟩ := hord.exists_line hp hpos
    obtain rfl := List.eq_nil_of_length_eq_zero hpre
    obtain rfl := Option.some.inj (hi.symm.trans (hord.lookup_line hdb hl))
    unfold instructionIl at hres
    dsimp only at hres
    rw [if_neg (by simpa using halign), if_neg (by simp)] at hres
    by_contra hno
    rw [if_neg hno] at hres
    cases hres
  · intro hwithin
    obtain ⟨is, his⟩ : ∃ is, preparePacketForLifting p.insn = some is := by
      have hfit := ((prepareAccesses_within_iff h hord.max).1 hwithin).2
      rw [hord.insn] at hfit ⊢
      obtain ⟨halves, rest, heq, -⟩ := preparePacket_core hord.arranged hfit
      exact ⟨_, heq⟩
    refine ⟨?_, fun j hj => ?_, is, his, fun j hj => ?_⟩
    · have hsum : ∀ n : Nat, ((List.range n).map fun _ => 4).sum = 4 * n := fun n => by
        rw [List.map_const', List.sum_replicate_nat, List.length_range, Nat.mul_comm]
      rw [hsum, hmul]
    · obtain ⟨pre, u, post, hl, rfl, hsize⟩ := hord.exists_line hp hj
      refine ⟨_, hord.lookup_line hdb hl, ?_⟩
      unfold instructionInfo fillBnInstructionInfo
      rw [hord.atLastInsn_line hl, if_neg (by dsimp only; omega)]
      have hlast : pre.length + 1 = p.encodPktSizeInBytes / 4 ↔ post = [] := by
        rw [hsize, ← List.length_eq_zero_iff]
        omega
      by_cases hnil : post = []
      · rw [if_pos (hlast.2 hnil), if_pos (by simpa using hnil)]
        rfl
      · rw [if_neg fun h => hnil (hlast.1 h), if_neg (by simpa using hnil)]
        rfl
    · obtain ⟨pre, u, post, hl, rfl, -⟩ := hord.exists_line hp hj
      refine ⟨_, hord.lookup_line hdb hl, ?_⟩
      unfold instructionIl
      dsimp only
      rw [if_neg (by omega)]
      by_cases hnil : pre = []
      · subst hnil
        rw [if_neg (by simp), if_pos hwithin, his]
        rfl
      · rw [if_pos fun h0 => hnil (hl.first.1 h0), if_neg fun h0 => hnil (List.eq_nil_of_length_eq_zero h0)]

end Report

/-- The packet of an extender, the compound jump that it extends and a `nop`, at 0x1000. -/
theorem oneReport_iff_compound : ∃ p,
    (decodePacket compoundTables [0x00004000, 0x10036002, 0x7f00c000]).outcome = .packet p ∧
    OneReport .added (oneAt 0x1000 p) 0x1000 p := by
  refine ⟨_, rfl, ?_⟩
  refine (oneReport_iff compoundTables [0x00004000, 0x10036002, 0x7f00c000] _ rfl (by decide +kernel) .added _ 0x1000
    ?_ (by decide) (by decide +kernel)).2 ⟨?_, by decide +kernel⟩
  · exact @storedAt_setInterval .empty ⟨0x1000, _⟩ ⟨by decide +kernel, by decide, by decide +kernel⟩
      (show 0x1000 + 12 < 2 ^ 64 by decide)
  · exact ⟨Opcodes.a2Nop.insn [] [] Opcodes.a2Nop_fits,
      List.mem_cons_of_mem _ (List.mem_cons_of_mem _ List.mem_cons_self), by decide⟩

/-- `{ immext(#0) }` -/
def immextPacket : Packet := ⟨[Opcodes.a4Ext.insn [] [0] Opcodes.a4Ext_fits], false, 4⟩

/-- The first word of the packet is asked for, and preparation reads `insn[-1]`. -/
theorem immext_no_report : (decodePacket nopTables [0x0000c000]).outcome = .packet immextPacket ∧
    (lookup (oneAt 0x1000 immextPacket) 0x1000).map (fun i => (instructionIl .added i).isSome) = some false ∧
    ¬ OneReport .added (oneAt 0x1000 immextPacket) 0x1000 immextPacket := by
  have hnone : (lookup (oneAt 0x1000 immextPacket) 0x1000).map (fun i => (instructionIl .added i).isSome) =
      some false := by decide +kernel
  refine ⟨rfl, hnone, fun h => ?_⟩
  obtain ⟨is, -, hil⟩ := h.il
  obtain ⟨i, hi, hres⟩ := hil 0 (by decide)
  rw [Nat.mul_zero, Nat.add_zero] at hi
  rw [hi, Option.map_some, hres] at hnone
  cases hnone

end Hex
