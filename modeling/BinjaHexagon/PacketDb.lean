import Mathlib.Order.Nat
import BinjaHexagon.IntervalMap
import BinjaHexagon.DecodeSafe
/-!
# PacketDb — the database of decoded packets

Addresses are the numbers below `2 ^ 64`.  A decode that leaves `pkt->insn` has no outcome, and neither has a call that
makes it.
-/
namespace Hex

deriving instance DecidableEq for Opcode, Insn, Packet

instance (l : List Nat) : Decidable (InArray l) := inferInstanceAs (Decidable (∀ p ∈ l, p < instructionsMax))

/-- `PacketDb::AddressInfo`. -/
structure AddressInfo where
  startAddr : Nat
  pkt : Packet
  deriving DecidableEq

instance : Inhabited AddressInfo := ⟨⟨0, ⟨[], false, 0⟩⟩⟩

/-- The bytes of a packet. -/
def AddressInfo.Covers (x : AddressInfo) (a : Nat) : Prop :=
  x.startAddr ≤ a ∧ a < x.startAddr + x.pkt.encodPktSizeInBytes

/-- `map_`. -/
abbrev PacketDb := IntervalMap Nat AddressInfo

/-- `reinterpret_cast<const uint32_t *>(data.data())`. -/
def dataWords : List (BitVec 8) → List (BitVec 32)
  | a :: b :: c :: d :: l => (d ++ c ++ b ++ a) :: dataWords l
  | _ => []

/-- `addr + size` of `uint64_t`. -/
def addrAfter (addr : Nat) (p : Packet) : Nat := (addr + p.encodPktSizeInBytes) % 2 ^ 64

/-- `while (words.size() > 0)`: the map and `packets_added`. -/
def addLoop (T : DecodeTables) : Nat → List (BitVec 32) → Nat → PacketDb → Option (PacketDb × Nat)
  | 0, _, _, db => some (db, 0)
  | fuel + 1, words, addr, db =>
    if words.isEmpty then some (db, 0)
    else if InArray (decodePacket T words).writes then
      match (decodePacket T words).outcome with
      | .packet p => do
        let r ← addLoop T fuel (words.drop (p.encodPktSizeInBytes / 4)) (addrAfter addr p)
          (db.setInterval addr (addrAfter addr p) ⟨addr, p⟩)
        some (r.1, r.2 + 1)
      | _ => some (db, 0)
    else none

/-- `PacketDb::AddBytes`: the map, and whether it returns `OkStatus`. -/
def addBytes (T : DecodeTables) (db : PacketDb) (data : List (BitVec 8)) (addr : Nat) : Option (PacketDb × Bool) :=
  if data.length < 4 ∨ data.length % 4 ≠ 0 then some (db, false)
  else do
    let r ← addLoop T (dataWords data).length (dataWords data) addr db
    some (r.1, r.2 != 0)

/-- `PacketDb::Lookup`. -/
def lookup (db : PacketDb) (addr : Nat) : Option InsnInfo :=
  let addrInfo := db.find addr
  if addrInfo.pkt.encodPktSizeInBytes = 0 then none
  else some (findInstructionInPacket addrInfo.startAddr addrInfo.pkt addr)

section Words

theorem length_dataWords : ∀ data : List (BitVec 8), (dataWords data).length = data.length / 4
  | [] => rfl
  | [_] | [_, _] | [_, _, _] => by simp [dataWords]
  | a :: b :: c :: d :: l => by
    rw [dataWords, List.length_cons, length_dataWords l]
    simp only [List.length_cons]
    omega

end Words

section Decoded

variable {T : DecodeTables} {words : List (BitVec 32)} {p : Packet}

/-- The words of a packet: the first that ends one is its last. -/
structure PacketSpan (words : List (BitVec 32)) (p : Packet) (k : Nat) : Prop where
  size : p.encodPktSizeInBytes = 4 * (k + 1)
  few : k < instructionsMax
  long : k < words.length
  ends : words[k]?.any isPacketEnd = true
  before : ∀ i < k, words[i]?.any isPacketEnd = false

/-- A decode in the array's bounds reads the words up to the first that ends a packet, and no others matter. -/
theorem decodePacket_span (h : (decodePacket T words).outcome = .packet p)
    (hw : InArray (decodePacket T words).writes) :
    ∃ k, PacketSpan words p k ∧ k < maxWords words.length ∧ ∀ words' : List (BitVec 32), k < maxWords words'.length →
      (∀ i ≤ k, words'[i]? = words[i]?) → decodePacket T words' = decodePacket T words := by
  obtain ⟨pre, last, rest, g, rfl, hspan, hg, hgather, hfin⟩ := decodePacket_packet h
  have hwrites := (inArray_decodePacket.1 hw).1
  rw [hgather] at hwrites
  have hlt := (hg.length_lt hwrites).1
  have hsize := (finish_packet hfin).2.2
  refine ⟨pre.length, ⟨?_, hlt, by simp, ?_, fun i hi => ?_⟩, hspan, fun words' hlong hsame => ?_⟩
  · rw [hsize]
    simp only [instructionsMax] at hlt
    omega
  · simpa using hg.collected.ends
  · rw [List.getElem?_append_left hi, List.getElem?_eq_getElem hi, Option.any_some]
    exact hg.collected.before _ (List.getElem_mem hi)
  · have hlen := (maxWords_le words'.length).trans_lt' hlong
    have htake : words'.take (pre.length + 1) = pre ++ [last] := by
      refine List.ext_getElem? fun i => ?_
      rw [List.getElem?_take]
      split
      · rename_i hi
        rw [hsame i (by omega), ← List.singleton_append, ← List.append_assoc]
        exact List.getElem?_append_left (by simpa using hi)
      · exact (List.getElem?_eq_none (by simpa using by omega)).symm
    have hwords' : words' = pre ++ last :: words'.drop (pre.length + 1) := by
      have := List.take_append_drop (pre.length + 1) words'
      rw [htake, List.append_assoc, List.singleton_append] at this
      exact this.symm
    rw [hwords']
    refine hg.decodePacket_congr ?_ hspan
    rwa [← hwords']

theorem PacketSpan.pos {k : Nat} (h : PacketSpan words p k) : 0 < p.encodPktSizeInBytes := by
  have := h.size
  omega

theorem PacketSpan.drop {k : Nat} (h : PacketSpan words p k) : p.encodPktSizeInBytes / 4 = k + 1 := by
  have := h.size
  omega

end Decoded

/-- The packets `AddBytes` takes out of the words, with their addresses. -/
inductive Decodes (T : DecodeTables) : List (BitVec 32) → Nat → List AddressInfo → Prop
  | done (addr : Nat) : Decodes T [] addr []
  | stop {words : List (BitVec 32)} (addr : Nat) (hw : InArray (decodePacket T words).writes)
      (h : ∀ p, (decodePacket T words).outcome ≠ .packet p) : Decodes T words addr []
  | next {words : List (BitVec 32)} {addr : Nat} {p : Packet} {l : List AddressInfo}
      (hw : InArray (decodePacket T words).writes) (h : (decodePacket T words).outcome = .packet p)
      (hl : Decodes T (words.drop (p.encodPktSizeInBytes / 4)) (addrAfter addr p) l) :
      Decodes T words addr (⟨addr, p⟩ :: l)

/-- Their insertions, in order. -/
def insertAll : List AddressInfo → PacketDb → PacketDb
  | [], db => db
  | x :: l, db => insertAll l (db.setInterval x.startAddr (addrAfter x.startAddr x.pkt) x)

section Add

variable {T : DecodeTables}

/-- The loop has fuel enough: it takes a word at least each time round. -/
theorem addLoop_some : ∀ {fuel : Nat} {words : List (BitVec 32)} {addr : Nat} {db : PacketDb} {r : PacketDb × Nat},
    words.length ≤ fuel → addLoop T fuel words addr db = some r →
      ∃ l, Decodes T words addr l ∧ r = (insertAll l db, l.length)
  | 0, words, addr, db, r, hf, h => by
    obtain rfl := List.eq_nil_of_length_eq_zero (Nat.le_zero.1 hf)
    cases h
    exact ⟨[], .done addr, rfl⟩
  | fuel + 1, words, addr, db, r, hf, h => by
    unfold addLoop at h
    split at h
    · rename_i hnil
      obtain rfl := List.isEmpty_iff.1 hnil
      cases h
      exact ⟨[], .done addr, rfl⟩
    · split at h
      · rename_i hw
        split at h
        · rename_i p hp
          obtain ⟨k, hk, -⟩ := decodePacket_span hp hw
          obtain ⟨r', hr', h⟩ := Option.bind_eq_some_iff.1 h
          cases h
          have hlen : (words.drop (p.encodPktSizeInBytes / 4)).length ≤ fuel := by
            rw [List.length_drop, hk.drop]
            have := hk.long
            omega
          obtain ⟨l, hl, rfl⟩ := addLoop_some hlen hr'
          exact ⟨⟨addr, p⟩ :: l, .next hw hp hl, rfl⟩
        · rename_i hno
          cases h
          exact ⟨[], .stop addr hw hno, rfl⟩
      · cases h

/-- **`AddBytes` inserts the packets of its words, and fails exactly when there are none.** -/
theorem addBytes_some {db : PacketDb} {data : List (BitVec 8)} {addr : Nat} {r : PacketDb × Bool}
    (h : addBytes T db data addr = some r) :
    ∃ l, (data.length % 4 = 0 → Decodes T (dataWords data) addr l) ∧ (data.length % 4 ≠ 0 → l = []) ∧
      r = (insertAll l db, !l.isEmpty) := by
  unfold addBytes at h
  split at h
  · rename_i hshort
    cases h
    refine ⟨[], fun hmod => ?_, fun _ => rfl, rfl⟩
    have hnil : dataWords data = [] := by
      refine List.eq_nil_of_length_eq_zero ?_
      rw [length_dataWords]
      omega
    rw [hnil]
    exact .done addr
  · rename_i hlong
    obtain ⟨r', hr', h⟩ := Option.bind_eq_some_iff.1 h
    cases h
    obtain ⟨l, hl, rfl⟩ := addLoop_some (Nat.le_refl _) hr'
    refine ⟨l, fun _ => hl, fun hmod => absurd (.inr hmod) hlong, ?_⟩
    cases l <;> rfl

end Add

/-- What the database has at an address. -/
def stored (db : PacketDb) (a : Nat) : Option AddressInfo :=
  if (db.find a).pkt.encodPktSizeInBytes = 0 then none else some (db.find a)

theorem lookup_eq (db : PacketDb) (a : Nat) :
    lookup db a = (stored db a).map fun x => findInstructionInPacket x.startAddr x.pkt a := by
  unfold lookup stored
  simp only
  split <;> rfl

theorem stored_some {db : PacketDb} {a : Nat} {x : AddressInfo} :
    stored db a = some x ↔ db.find a = x ∧ 0 < x.pkt.encodPktSizeInBytes := by
  unfold stored
  split
  · rename_i h
    refine ⟨nofun, ?_⟩
    rintro ⟨rfl, hpos⟩
    omega
  · rename_i h
    constructor
    · intro hx
      obtain rfl := Option.some.inj hx
      exact ⟨rfl, Nat.pos_of_ne_zero h⟩
    · rintro ⟨rfl, -⟩
      rfl

/-- A packet is kept unless it reaches the top of the address space. -/
def AddressInfo.Lands (x : AddressInfo) : Prop :=
  x.startAddr + x.pkt.encodPktSizeInBytes < 2 ^ 64

/-- An address that one of the insertions overwrites. -/
def Written (l : List AddressInfo) (a : Nat) : Prop := ∃ x ∈ l, x.Lands ∧ x.Covers a

/-- A packet of the decoder: it fits the array. -/
structure AddressInfo.Small (x : AddressInfo) : Prop where
  start : x.startAddr < 2 ^ 64
  pos : 0 < x.pkt.encodPktSizeInBytes
  small : x.pkt.encodPktSizeInBytes ≤ 4 * instructionsMax

section Insert

theorem find_insert (db : PacketDb) {x : AddressInfo} (hx : x.Small) (a : Nat) :
    (x.Lands ∧ x.Covers a → (db.setInterval x.startAddr (addrAfter x.startAddr x.pkt) x).find a = x) ∧
      (¬ (x.Lands ∧ x.Covers a) → (db.setInterval x.startAddr (addrAfter x.startAddr x.pkt) x).find a = db.find a) := by
  have hstart := hx.start
  have hsmall := hx.small
  simp only [instructionsMax] at hsmall
  rw [IntervalMap.find_setInterval]
  unfold AddressInfo.Lands AddressInfo.Covers addrAfter
  constructor
  · rintro ⟨hlands, hcovers⟩
    rw [if_pos (by omega)]
  · intro hno
    rw [if_neg (by omega)]

variable {T : DecodeTables}

theorem Decodes.small {words : List (BitVec 32)} {addr : Nat} {l : List AddressInfo} (h : Decodes T words addr l)
    (ha : addr < 2 ^ 64) : ∀ x ∈ l, x.Small := by
  induction h with
  | done | stop => exact fun _ h => nomatch h
  | @next words addr p l hw hp _ ih =>
    obtain ⟨k, hk, -⟩ := decodePacket_span hp hw
    have hsize := hk.size
    have hfew := hk.few
    simp only [instructionsMax] at hfew
    refine List.forall_mem_cons.2 ⟨⟨ha, hk.pos, ?_⟩, ih (Nat.mod_lt _ (by decide))⟩
    simp only [instructionsMax]
    omega

theorem Decodes.offset {words : List (BitVec 32)} {addr : Nat} {l : List AddressInfo} (h : Decodes T words addr l)
    (ha : addr < 2 ^ 64) : ∀ x ∈ l, ∃ o, x.startAddr = (addr + o) % 2 ^ 64 ∧
      o + x.pkt.encodPktSizeInBytes ≤ 4 * words.length := by
  induction h with
  | done | stop => exact fun _ h => nomatch h
  | @next words addr p l hw hp _ ih =>
    obtain ⟨k, hk, -⟩ := decodePacket_span hp hw
    have hsize := hk.size
    have hlong := hk.long
    refine List.forall_mem_cons.2 ⟨⟨0, (Nat.mod_eq_of_lt ha).symm, by dsimp only; omega⟩, fun x hx => ?_⟩
    obtain ⟨o, ho, hle⟩ := ih (Nat.mod_lt _ (by decide)) x hx
    rw [List.length_drop, hk.drop] at hle
    refine ⟨p.encodPktSizeInBytes + o, ?_, by omega⟩
    rw [ho, addrAfter]
    omega

theorem Decodes.disjoint {words : List (BitVec 32)} {addr : Nat} {l : List AddressInfo} (h : Decodes T words addr l)
    (ha : addr < 2 ^ 64) (hlen : 4 * words.length ≤ 2 ^ 64) :
    l.Pairwise fun x y => x.Lands → y.Lands → ∀ a, x.Covers a → ¬ y.Covers a := by
  induction h with
  | done | stop => exact .nil
  | @next words addr p l hw hp hl ih =>
    obtain ⟨k, hk, -⟩ := decodePacket_span hp hw
    have hsize := hk.size
    have hlong := hk.long
    have hdrop : (words.drop (p.encodPktSizeInBytes / 4)).length = words.length - (k + 1) := by
      rw [List.length_drop, hk.drop]
    have hnext : addrAfter addr p < 2 ^ 64 := Nat.mod_lt _ (by decide)
    refine List.pairwise_cons.2 ⟨fun y hy hx hy' a hxa hya => ?_, ih hnext (by omega)⟩
    obtain ⟨o, ho, hle⟩ := hl.offset hnext y hy
    unfold AddressInfo.Lands AddressInfo.Covers addrAfter at *
    dsimp only at *
    omega

theorem find_insertAll : ∀ {l : List AddressInfo} (db : PacketDb) (a : Nat), (∀ x ∈ l, x.Small) →
    l.Pairwise (fun x y => x.Lands → y.Lands → ∀ a, x.Covers a → ¬ y.Covers a) →
      (∀ x ∈ l, x.Lands → x.Covers a → (insertAll l db).find a = x) ∧
        (¬ Written l a → (insertAll l db).find a = db.find a)
  | [], db, a, _, _ => ⟨(fun _ h => nomatch h), fun _ => rfl⟩
  | y :: l, db, a, hs, hd => by
    obtain ⟨hy, hs⟩ := List.forall_mem_cons.1 hs
    obtain ⟨hyd, hd⟩ := List.pairwise_cons.1 hd
    obtain ⟨hin, hout⟩ := find_insertAll (db.setInterval y.startAddr (addrAfter y.startAddr y.pkt) y) a hs hd
    obtain ⟨hfind, hkeep⟩ := find_insert db hy a
    refine ⟨fun x hx hlands hcovers => ?_, fun hno => ?_⟩
    · rcases List.mem_cons.1 hx with rfl | hx
      · have hrest : ¬ Written l a := by
          rintro ⟨z, hz, hzl, hzc⟩
          exact hyd z hz hlands hzl a hcovers hzc
        exact (hout hrest).trans (hfind ⟨hlands, hcovers⟩)
      · exact hin x hx hlands hcovers
    · have hrest : ¬ Written l a := fun ⟨z, hz, hzl⟩ => hno ⟨z, List.mem_cons_of_mem _ hz, hzl⟩
      exact (hout hrest).trans (hkeep fun hc => hno ⟨y, List.mem_cons_self, hc⟩)

end Insert

end Hex
