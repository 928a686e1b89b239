import BinjaHexagon.PacketDb
/-!
# PacketAdd — what `AddBytes` leaves in the database

The packets that decoding takes from the front of the words lie behind each other, from the given address on.  Nothing
else changes.
-/
namespace Hex

variable {T : DecodeTables} {words : List (BitVec 32)} {ps : List Packet} {addr : Nat}

/-- The packets that decoding from the front gives, until a decode fails or the words run out. -/
inductive FrontPackets (T : DecodeTables) : List (BitVec 32) → List Packet → Prop
  | done : FrontPackets T [] []
  | stop {words : List (BitVec 32)} (hw : InArray (decodePacket T words).writes)
      (h : ∀ p, (decodePacket T words).outcome ≠ .packet p) : FrontPackets T words []
  | next {words : List (BitVec 32)} {p : Packet} {ps : List Packet} (hw : InArray (decodePacket T words).writes)
      (h : (decodePacket T words).outcome = .packet p)
      (hps : FrontPackets T (words.drop (p.encodPktSizeInBytes / 4)) ps) : FrontPackets T words (p :: ps)

/-- The bytes of packets. -/
def packetBytes (ps : List Packet) : Nat := (ps.map (·.encodPktSizeInBytes)).sum

/-- Where packet `i` begins. -/
def packetStart (addr : Nat) (ps : List Packet) (i : Nat) : Nat := addr + packetBytes (ps.take i)

/-- The packets with their addresses, as the loop counts them. -/
def placed : Nat → List Packet → List AddressInfo
  | _, [] => []
  | addr, p :: ps => ⟨addr, p⟩ :: placed (addrAfter addr p) ps

@[simp] theorem length_placed : ∀ (addr : Nat) (ps : List Packet), (placed addr ps).length = ps.length
  | _, [] => rfl
  | addr, p :: ps => congrArg (· + 1) (length_placed (addrAfter addr p) ps)

theorem FrontPackets.decodes (h : FrontPackets T words ps) : ∀ addr, Decodes T words addr (placed addr ps) := by
  induction h with
  | done => exact .done
  | stop hw h => exact fun addr => .stop addr hw h
  | next hw h _ ih => exact fun _ => .next hw h (ih _)

theorem FrontPackets.bytes_le (h : FrontPackets T words ps) : packetBytes ps ≤ 4 * words.length := by
  induction h with
  | done | stop => exact Nat.zero_le _
  | @next words p ps hw h _ ih =>
    obtain ⟨k, hk, -⟩ := decodePacket_span h hw
    have hsize := hk.size
    have hlong := hk.long
    rw [List.length_drop, hk.drop] at ih
    unfold packetBytes at *
    rw [List.map_cons, List.sum_cons]
    omega

theorem FrontPackets.addLoop (h : FrontPackets T words ps) : ∀ {fuel : Nat} (addr : Nat) (db : PacketDb),
    words.length ≤ fuel → addLoop T fuel words addr db = some (insertAll (placed addr ps) db, ps.length) := by
  induction h with
  | done =>
    intro fuel addr db _
    cases fuel <;> rfl
  | stop hw h =>
    intro fuel addr db hf
    cases fuel with
    | zero => rfl
    | succ fuel =>
      unfold Hex.addLoop
      split
      · rfl
      · split
        · rename_i p hp
          exact absurd hp (h p)
        · rfl
  | @next words p ps hw h _ ih =>
    intro fuel addr db hf
    obtain ⟨k, hk, -⟩ := decodePacket_span h hw
    have hlong := hk.long
    cases fuel with
    | zero => omega
    | succ fuel =>
      have hne : words.isEmpty = false := by
        rw [← Bool.not_eq_true, List.isEmpty_iff]
        exact fun h => absurd (h ▸ hlong) (Nat.not_lt_zero _)
      have hlen : (words.drop (p.encodPktSizeInBytes / 4)).length ≤ fuel := by
        rw [List.length_drop, hk.drop]
        omega
      unfold Hex.addLoop
      rw [hne, if_neg Bool.false_ne_true, if_pos hw, h]
      simp only [ih _ _ hlen]
      rfl

theorem getElem?_placed : ∀ (ps : List Packet) (addr i : Nat), addr + packetBytes ps < 2 ^ 64 →
    (placed addr ps)[i]? = ps[i]?.map fun p => ⟨packetStart addr ps i, p⟩
  | [], _, _, _ => rfl
  | p :: ps, addr, 0, _ => rfl
  | p :: ps, addr, i + 1, h => by
    have hbytes : packetBytes (p :: ps) = p.encodPktSizeInBytes + packetBytes ps := List.sum_cons
    have hafter : addrAfter addr p = addr + p.encodPktSizeInBytes := Nat.mod_eq_of_lt (by omega)
    have hstart : packetStart (addrAfter addr p) ps i = packetStart addr (p :: ps) (i + 1) := by
      unfold packetStart
      rw [hafter, List.take_succ_cons, Nat.add_assoc]
      exact congrArg (addr + ·) List.sum_cons.symm
    rw [placed, List.getElem?_cons_succ, List.getElem?_cons_succ, getElem?_placed ps _ i (by omega), hstart]

theorem packetStart_add_le {i : Nat} {p : Packet} (h : ps[i]? = some p) :
    packetStart addr ps i + p.encodPktSizeInBytes ≤ addr + packetBytes ps := by
  obtain ⟨hi, rfl⟩ := List.getElem?_eq_some_iff.1 h
  have hsplit : packetBytes ps = packetBytes (ps.take i) + packetBytes (ps.drop i) := by
    unfold packetBytes
    rw [← List.sum_append, ← List.map_append, List.take_append_drop]
  have hdrop : packetBytes (ps.drop i) = ps[i].encodPktSizeInBytes + packetBytes (ps.drop (i + 1)) := by
    rw [List.drop_eq_getElem_cons hi]
    exact List.sum_cons
  unfold packetStart
  omega

/-- What `AddBytes` promises, `ps` being the packets in front. -/
structure AddBytesMeets (db : PacketDb) (data : List (BitVec 8)) (addr : Nat) (ps : List Packet)
    (r : PacketDb × Bool) : Prop where
  ok : r.2 = true ↔ (0 < data.length ∧ data.length % 4 = 0) ∧ ps ≠ []
  covered : r.2 = true → ∀ i p, ps[i]? = some p → ∀ a, packetStart addr ps i ≤ a →
    a < packetStart addr ps i + p.encodPktSizeInBytes →
      lookup r.1 a = some (findInstructionInPacket (packetStart addr ps i) p a)
  frame : r.2 = true → ∀ a, (∀ i p, ps[i]? = some p → ¬ (packetStart addr ps i ≤ a ∧
    a < packetStart addr ps i + p.encodPktSizeInBytes)) → lookup r.1 a = lookup db a
  atomic : r.2 = false → ∀ a, lookup r.1 a = lookup db a

/-- **`AddBytes` stores the packets in front, and nothing else**: it fails exactly when there is none. -/
theorem addBytes_meets (T : DecodeTables) (db : PacketDb) (data : List (BitVec 8)) (addr : Nat) (ps : List Packet)
    (hroom : addr + data.length < 2 ^ 64) (hps : data.length % 4 = 0 → FrontPackets T (dataWords data) ps) :
    ∃ r, addBytes T db data addr = some r ∧ AddBytesMeets db data addr ps r := by
  unfold addBytes
  by_cases hshort : data.length < 4 ∨ data.length % 4 ≠ 0
  · rw [if_pos hshort]
    refine ⟨_, rfl, ⟨⟨nofun, fun ⟨⟨hpos, hmod⟩, _⟩ => ?_⟩, nofun, nofun, fun _ _ => rfl⟩⟩
    omega
  · rw [if_neg hshort]
    obtain ⟨hlong, hmod⟩ : 4 ≤ data.length ∧ data.length % 4 = 0 := by omega
    have hfront := hps hmod
    have hbytes : packetBytes ps ≤ data.length := by
      have := hfront.bytes_le
      rw [length_dataWords] at this
      omega
    have haddr : addr < 2 ^ 64 := by omega
    have hdecodes := hfront.decodes addr
    have hmem : ∀ {x}, x ∈ placed addr ps ↔ ∃ i p, ps[i]? = some p ∧ x = ⟨packetStart addr ps i, p⟩ := fun {x} => by
      rw [List.mem_iff_getElem?]
      refine exists_congr fun i => ?_
      rw [getElem?_placed ps addr i (by omega)]
      cases ps[i]? with
      | none => simp
      | some p => simp [eq_comm]
    have hlands : ∀ i p, ps[i]? = some p → (⟨packetStart addr ps i, p⟩ : AddressInfo).Lands := fun i p hp => by
      have := @packetStart_add_le ps addr _ _ hp
      unfold AddressInfo.Lands
      dsimp only
      omega
    have hfind := fun a => find_insertAll db a (hdecodes.small haddr)
      (hdecodes.disjoint haddr (by rw [length_dataWords]; omega))
    have hkept : ∀ a, (∀ i p, ps[i]? = some p → ¬ (packetStart addr ps i ≤ a ∧
        a < packetStart addr ps i + p.encodPktSizeInBytes)) → lookup (insertAll (placed addr ps) db) a = lookup db a :=
      fun a hout => by
        unfold lookup
        rw [(hfind a).2]
        rintro ⟨x, hx, -, hcovers⟩
        obtain ⟨i, p, hp, rfl⟩ := hmem.1 hx
        exact hout i p hp hcovers
    rw [hfront.addLoop addr db (Nat.le_refl _)]
    refine ⟨_, rfl, ⟨?_, fun _ i p hp a hlo hhi => ?_, fun _ => hkept, fun hno => ?_⟩⟩
    · rw [bne_iff_ne, Ne, List.length_eq_zero_iff]
      exact ⟨fun h => ⟨⟨by omega, hmod⟩, h⟩, fun h => h.2⟩
    · have hin := (hfind a).1 _ (hmem.2 ⟨i, p, hp, rfl⟩) (hlands i p hp) ⟨hlo, hhi⟩
      have hpos := ((hdecodes.small haddr) _ (hmem.2 ⟨i, p, hp, rfl⟩)).pos
      unfold lookup
      simp only [hin]
      exact if_neg (by omega)
    · have hnil : ps = [] := by simpa using hno
      subst hnil
      exact fun a => hkept a (fun _ _ h => nomatch h)

/-- `{ nop }` -/
def nopPacket : Packet := ⟨[Opcodes.a2Nop.insn [] [] Opcodes.a2Nop_fits], false, 4⟩

/-- `{ nop } { nop }` and a word that is no instruction, at `0x1000`. -/
theorem addBytes_meets_nops : ∃ r, addBytes nopTables .empty
      [0, 0xc0, 0, 0x7f, 0, 0xc0, 0, 0x7f, 0, 0, 0, 0] 0x1000 = some r ∧
    AddBytesMeets .empty [0, 0xc0, 0, 0x7f, 0, 0xc0, 0, 0x7f, 0, 0, 0, 0] 0x1000 [nopPacket, nopPacket] r := by
  refine addBytes_meets nopTables .empty _ 0x1000 _ (by decide) fun _ => ?_
  exact .next (by decide +kernel) rfl (.next (by decide +kernel) rfl (.stop (by decide +kernel) nofun))

end Hex
