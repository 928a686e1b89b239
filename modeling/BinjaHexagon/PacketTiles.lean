import BinjaHexagon.PacketDb
import BinjaHexagon.VectorOrder
/-!
# PacketTiles — the bytes of a packet's instructions

An instruction takes four bytes, a half of a duplex two, the endloop none.  These ranges lie behind each other and fill
the packet, and `Lookup` finds the instruction whose range an address is in.
-/
namespace Hex

/-- Where instruction `k` begins. -/
def insnStart (start : Nat) (l : List Insn) (k : Nat) : Nat := start + insnBytes (l.take k)

section Find

variable {core c : List Insn} {i : Insn} {k start addr : Nat}

theorem insnBytes_cons (i : Insn) (l : List Insn) : insnBytes (i :: l) = i.size + insnBytes l := List.sum_cons

theorem insnBytes_append (l l' : List Insn) : insnBytes (l ++ l') = insnBytes l + insnBytes l' := by
  rw [insnBytes, List.map_append, List.sum_append]
  rfl

theorem Insn.size_pos (i : Insn) : 0 < i.size := by
  unfold Insn.size
  split <;> decide

theorem insnStart_append (h : k ≤ core.length) : insnStart start (core ++ c) k = insnStart start core k := by
  rw [insnStart, List.take_append_of_le_length h, insnStart]

theorem insnStart_succ (h : core[k]? = some i) : insnStart start core (k + 1) = insnStart start core k + i.size := by
  obtain ⟨hk, rfl⟩ := List.getElem?_eq_some_iff.1 h
  rw [insnStart, List.take_succ_eq_append_getElem hk, insnBytes_append, insnStart, Nat.add_assoc]
  rfl

theorem insnStart_le (h : core[k]? = some i) : insnStart start core k + i.size ≤ start + insnBytes core := by
  rw [← insnStart_succ h, insnStart]
  have hsplit : insnBytes core = insnBytes (core.take (k + 1)) + insnBytes (core.drop (k + 1)) := by
    rw [← insnBytes_append, List.take_append_drop]
  omega

/-- The instruction whose range an address is in is the one found. -/
theorem findInsn_at : ∀ {core : List Insn} {n start k : Nat}, core[k]? = some i → insnStart start core k ≤ addr →
    addr < insnStart start core k + i.size → findInsn addr n start (core ++ c) = (n + k, insnStart start core k)
  | [], _, _, _, h, _, _ => nomatch h
  | j :: core, n, start, 0, h, h₁, h₂ => by
    obtain rfl := Option.some.inj h
    have hstart : insnStart start (j :: core) 0 = start := rfl
    rw [hstart] at h₁ h₂ ⊢
    rw [List.cons_append, findInsn, if_pos ⟨h₁, h₂⟩, Nat.add_zero]
  | j :: core, n, start, k + 1, h, h₁, h₂ => by
    have hstart : insnStart start (j :: core) (k + 1) = insnStart (start + j.size) core k := by
      rw [insnStart, List.take_succ_cons, insnBytes_cons, insnStart, Nat.add_assoc]
    rw [hstart] at h₁ h₂ ⊢
    have hpast : ¬ (start ≤ addr ∧ addr < start + j.size) := by
      have : start + j.size ≤ insnStart (start + j.size) core k := Nat.le_add_right _ _
      omega
    have ih := @findInsn_at core (n + 1) (start + j.size) k h h₁ h₂
    rw [List.cons_append, findInsn, if_neg hpast, ih, Nat.add_assoc, Nat.add_comm 1]

/-- Every address of the packet is in the range of an instruction. -/
theorem exists_insn_at : ∀ {core : List Insn} {start : Nat}, start ≤ addr → addr < start + insnBytes core →
    ∃ k i, core[k]? = some i ∧ insnStart start core k ≤ addr ∧ addr < insnStart start core k + i.size
  | [], start, h₁, h₂ => absurd h₂ (Nat.not_lt.2 h₁)
  | j :: core, start, h₁, h₂ => by
    by_cases hj : addr < start + j.size
    · exact ⟨0, j, rfl, h₁, hj⟩
    · rw [insnBytes_cons] at h₂
      obtain ⟨k, i, hk, hlo, hhi⟩ := @exists_insn_at core (start + j.size) (by omega) (by omega)
      have hstart : insnStart start (j :: core) (k + 1) = insnStart (start + j.size) core k := by
        rw [insnStart, List.take_succ_cons, insnBytes_cons, insnStart, Nat.add_assoc]
      exact ⟨k + 1, i, hk, by omega, by omega⟩

end Find

/-- `p` is stored at `start`. -/
def StoredAt (db : PacketDb) (start : Nat) (p : Packet) : Prop :=
  ∀ a, start ≤ a → a < start + p.encodPktSizeInBytes → stored db a = some ⟨start, p⟩

/-- What `Lookup` is to find in a packet.  The last field says that each range is that of the word, or half of a duplex,
the instruction was decoded from: instruction and operands are those of its place in the words. -/
structure ResolvesInsns (T : DecodeTables) (words : List (BitVec 32)) (db : PacketDb) (start : Nat) (p : Packet) :
    Prop where
  found : ∀ a, start ≤ a → a < start + p.encodPktSizeInBytes → ∃ (k : Nat) (i : Insn), p.insn[k]? = some i ∧
    i.endsLoop = false ∧ lookup db a = some ⟨start, p, k, insnStart start p.insn k⟩ ∧ insnStart start p.insn k ≤ a ∧
      a < insnStart start p.insn k + i.size
  tiles : ∀ (k : Nat) (i : Insn), p.insn[k]? = some i → i.endsLoop = false → ∀ a, insnStart start p.insn k ≤ a →
    a < insnStart start p.insn k + i.size → (start ≤ a ∧ a < start + p.encodPktSizeInBytes) ∧
      lookup db a = some ⟨start, p, k, insnStart start p.insn k⟩
  order : ∀ (k : Nat) (i : Insn), p.insn[k]? = some i → i.endsLoop = false → (wordInsns T words)[k]? = some i

section Lookup

variable {T : DecodeTables} {words : List (BitVec 32)} {p : Packet} {core c : List Insn} {db : PacketDb} {start : Nat}

/-- In the part before the endloop, a place is one of an instruction that is no endloop. -/
theorem PacketOrder.getElem?_core (h : PacketOrder T words p core c) {k : Nat} {i : Insn} :
    p.insn[k]? = some i ∧ i.endsLoop = false ↔ core[k]? = some i := by
  rw [h.insn]
  constructor
  · rintro ⟨hk, hi⟩
    by_cases hlt : k < core.length
    · rwa [List.getElem?_append_left hlt] at hk
    · rw [List.getElem?_append_right (by omega)] at hk
      rcases h.arranged.loop with rfl | ⟨e, rfl, he⟩
      · cases hk
      · obtain rfl := List.mem_singleton.1 (List.mem_of_getElem? hk)
        rw [he] at hi
        cases hi
  · intro hk
    have hlt : k < core.length := (List.getElem?_eq_some_iff.1 hk).1
    exact ⟨by rw [List.getElem?_append_left hlt]; exact hk, h.arranged.noLoop i (List.mem_of_getElem? hk)⟩

theorem PacketOrder.lookup_at (h : PacketOrder T words p core c) (hdb : StoredAt db start p) {k a : Nat} {i : Insn}
    (hk : core[k]? = some i) (h₁ : insnStart start core k ≤ a) (h₂ : a < insnStart start core k + i.size) :
    (start ≤ a ∧ a < start + p.encodPktSizeInBytes) ∧ lookup db a = some ⟨start, p, k, insnStart start p.insn k⟩ := by
  have hlt : k < core.length := (List.getElem?_eq_some_iff.1 hk).1
  have hlo : start ≤ insnStart start core k := Nat.le_add_right _ _
  have hhi := @insnStart_le _ _ _ start hk
  rw [h.bytes] at hhi
  have hin : start ≤ a ∧ a < start + p.encodPktSizeInBytes := by omega
  refine ⟨hin, ?_⟩
  rw [lookup_eq, hdb a hin.1 hin.2, Option.map_some, findInstructionInPacket, h.insn, findInsn_at hk h₁ h₂,
    insnStart_append (Nat.le_of_lt hlt), Nat.zero_add]

/-- The instructions are in order exactly when each is that of its place in the words. -/
theorem PacketOrder.order_iff (h : PacketOrder T words p core c) :
    (∀ (k : Nat) (i : Insn), core[k]? = some i → (wordInsns T words)[k]? = some i) ↔ core = wordInsns T words := by
  constructor
  · intro hall
    refine List.ext_getElem? fun k => ?_
    cases hk : core[k]? with
    | some i => exact (hall k i hk).symm
    | none =>
      rw [List.getElem?_eq_none_iff] at hk
      rw [h.perm.length_eq] at hk
      exact (List.getElem?_eq_none hk).symm
  · intro heq k i hk
    rwa [← heq]

/-- **`Lookup` finds the instruction at every byte of a packet exactly when the packet has its instructions in the
order of the words.** -/
theorem resolves_iff (T : DecodeTables) (words : List (BitVec 32)) (p : Packet)
    (h : (decodePacket T words).outcome = .packet p) (hw : InArray (decodePacket T words).writes) (db : PacketDb)
    (start : Nat) (hdb : StoredAt db start p) (hrows : ∀ i ∈ p.insn, i.opcode.VectorRow) :
    ResolvesInsns T words db start p ↔
      (p.insn.any (·.attrib .extension) = true → VectorsInPlace (wordInsns T words)) := by
  obtain ⟨core, c, hord⟩ := decodePacket_order h hw
  rw [← hord.order hrows, ← hord.order_iff]
  constructor
  · intro hr k i hk
    obtain ⟨hk', hi⟩ := hord.getElem?_core.2 hk
    exact hr.order k i hk' hi
  · intro hall
    refine ⟨fun a h₁ h₂ => ?_, fun k i hk hi a h₁ h₂ => ?_, fun k i hk hi => hall k i (hord.getElem?_core.1 ⟨hk, hi⟩)⟩
    · rw [← hord.bytes] at h₂
      obtain ⟨k, i, hk, hlo, hhi⟩ := exists_insn_at h₁ h₂
      obtain ⟨hk', hi⟩ := hord.getElem?_core.2 hk
      have hlt : k < core.length := (List.getElem?_eq_some_iff.1 hk).1
      have hstart : insnStart start p.insn k = insnStart start core k := by
        rw [hord.insn, insnStart_append (Nat.le_of_lt hlt)]
      exact ⟨k, i, hk', hi, (hord.lookup_at hdb hk hlo hhi).2, by omega, by omega⟩
    · have hcore := hord.getElem?_core.1 ⟨hk, hi⟩
      have hlt : k < core.length := (List.getElem?_eq_some_iff.1 hcore).1
      have hstart : insnStart start p.insn k = insnStart start core k := by
        rw [hord.insn, insnStart_append (Nat.le_of_lt hlt)]
      exact hord.lookup_at hdb hcore (by omega) (by omega)

/-- What `AddBytes` puts into the map for a packet stores it. -/
theorem storedAt_setInterval (db : PacketDb) {x : AddressInfo} (hx : x.Small) (hl : x.Lands) :
    StoredAt (db.setInterval x.startAddr (addrAfter x.startAddr x.pkt) x) x.startAddr x.pkt := fun a h₁ h₂ =>
  stored_some.2 ⟨(find_insert db hx a).1 ⟨hl, h₁, h₂⟩, hx.pos⟩

end Lookup

namespace Opcodes

/-- `v1.w=vadd(v0.w,v2.w)` -/
def v6Vaddw : Opcode where
  tag := .other 24
  attribs := [.extension, .cvi]
  regs := []
  parts := []
  supported := false
  generated := nofun
  wellScoped := nofun
  hint_not_call := by decide

/-- `v0.cur=vmem(r0+#0)` -/
def v6VL32bCurAi : Opcode where
  tag := .other 25
  attribs := [.extension, .cvi, .load, .cviNew]
  regs := [rt]
  parts := []
  supported := false
  generated := nofun
  wellScoped := nofun
  hint_not_call := by decide

theorem v6Vaddw_fits : ∀ d ∈ v6Vaddw.regs.zipIdx, [].getD d.2 0 < d.1.limit := by
  decide

theorem v6VL32bCurAi_fits : ∀ d ∈ v6VL32bCurAi.regs.zipIdx, [0].getD d.2 0 < d.1.limit := by
  decide

end Opcodes

def vectorTables : DecodeTables :=
  wordTables [(0x1c420001, Opcodes.v6Vaddw.insn [] [] Opcodes.v6Vaddw_fits),
    (0x28000020, Opcodes.v6VL32bCurAi.insn [0] [0] Opcodes.v6VL32bCurAi_fits),
      (0x7f000000, Opcodes.a2Nop.insn [] [] Opcodes.a2Nop_fits)]

/-- The database with one packet. -/
def oneAt (start : Nat) (p : Packet) : PacketDb :=
  IntervalMap.setInterval .empty start (addrAfter start p) ⟨start, p⟩

/-- `{ v0.cur=vmem(r0+#0); v1.w=vadd(v0.w,v2.w) }` -/
def vloadPacket : Packet :=
  ⟨[Opcodes.v6VL32bCurAi.insn [0] [0] Opcodes.v6VL32bCurAi_fits, Opcodes.v6Vaddw.insn [] [] Opcodes.v6Vaddw_fits],
    false, 8⟩

theorem storedAt_vload : StoredAt (oneAt 0x1000 vloadPacket) 0x1000 vloadPacket :=
  @storedAt_setInterval .empty ⟨0x1000, vloadPacket⟩ ⟨by decide, by decide, by decide⟩ (show 0x1000 + 8 < 2 ^ 64 by
    decide)

theorem vectorRow_vload : ∀ i ∈ vloadPacket.insn, i.opcode.VectorRow := by
  intro i hi
  rcases List.mem_cons.1 hi with rfl | hi
  · exact ⟨by decide, by decide⟩
  · obtain rfl := List.mem_singleton.1 hi
    exact ⟨by decide, by decide⟩

theorem wordInsns_vload : wordInsns vectorTables [0x28004020, 0x1c42c001] = vloadPacket.insn := rfl

theorem vectorsInPlace_vload : VectorsInPlace (wordInsns vectorTables [0x28004020, 0x1c42c001]) := by
  rw [wordInsns_vload]
  exact vectorsInPlace_of_load rfl (by decide +kernel)

theorem resolves_iff_vload : (decodePacket vectorTables [0x28004020, 0x1c42c001]).outcome = .packet vloadPacket ∧
    ResolvesInsns vectorTables [0x28004020, 0x1c42c001] (oneAt 0x1000 vloadPacket) 0x1000 vloadPacket :=
  ⟨rfl, (resolves_iff vectorTables [0x28004020, 0x1c42c001] vloadPacket rfl (by decide +kernel) _ 0x1000 storedAt_vload
    vectorRow_vload).2 fun _ => vectorsInPlace_vload⟩

/-- `{ v1.w=vadd(v0.w,v2.w); v0.cur=vmem(r0+#0) }`: the load is found at the first word. -/
theorem vector_load_first : ∃ p, (decodePacket vectorTables [0x1c424001, 0x2800c020]).outcome = .packet p ∧
    (lookup (oneAt 0x1000 p) 0x1000).map (fun i => p.insn[i.insnNum]?.map (·.opcode.tag)) =
      some (some (Opcodes.v6VL32bCurAi.tag)) ∧
    ¬ ResolvesInsns vectorTables [0x1c424001, 0x2800c020] (oneAt 0x1000 p) 0x1000 p := by
  refine ⟨_, rfl, by decide +kernel, fun h => ?_⟩
  have := h.order 0 _ rfl rfl
  exact absurd this (by decide +kernel)

end Hex
