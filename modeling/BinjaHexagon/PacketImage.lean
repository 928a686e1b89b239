import BinjaHexagon.PacketWhole
/-!
# PacketImage — requests over one memory image

A request looks its address up and decodes only what is not there.  Two packets that overlap have the same last word, so
what a request decodes takes in whole packets.
-/
namespace Hex

/-- The bytes of an image from an address on. -/
def imageBytes (image : Nat → BitVec 8) : Nat → Nat → List (BitVec 8)
  | _, 0 => []
  | a, n + 1 => image a :: imageBytes image (a + 1) n

def wordAt (image : Nat → BitVec 8) (a : Nat) : BitVec 32 := image (a + 3) ++ image (a + 2) ++ image (a + 1) ++ image a

def imageWords (image : Nat → BitVec 8) : Nat → Nat → List (BitVec 32)
  | _, 0 => []
  | a, n + 1 => wordAt image a :: imageWords image (a + 4) n

section Image

variable {image : Nat → BitVec 8}

theorem length_imageBytes : ∀ n a, (imageBytes image a n).length = n
  | 0, _ => rfl
  | n + 1, a => by rw [imageBytes, List.length_cons, length_imageBytes n]

theorem dataWords_imageBytes : ∀ n a, dataWords (imageBytes image a (4 * n)) = imageWords image a n
  | 0, _ => rfl
  | n + 1, a => by
    rw [show 4 * (n + 1) = 4 * n + 1 + 1 + 1 + 1 by omega]
    simp only [imageBytes, dataWords, imageWords]
    rw [dataWords_imageBytes n]
    rfl

theorem length_imageWords : ∀ n a, (imageWords image a n).length = n
  | 0, _ => rfl
  | n + 1, a => by rw [imageWords, List.length_cons, length_imageWords n]

theorem getElem?_imageWords : ∀ {n i : Nat} (a : Nat), i < n →
    (imageWords image a n)[i]? = some (wordAt image (a + 4 * i))
  | 0, _, _, h => absurd h (Nat.not_lt_zero _)
  | n + 1, 0, a, _ => rfl
  | n + 1, i + 1, a, h => by
    rw [imageWords, List.getElem?_cons_succ, getElem?_imageWords (a + 4) (Nat.lt_of_succ_lt_succ h)]
    congr 2
    omega

theorem drop_imageWords : ∀ n i a, (imageWords image a n).drop i = imageWords image (a + 4 * i) (n - i)
  | _, 0, _ => rfl
  | 0, i + 1, a => by rw [Nat.zero_sub]; rfl
  | n + 1, i + 1, a => by
    rw [imageWords, List.drop_succ_cons, drop_imageWords n i, Nat.succ_sub_succ, Nat.mul_succ, Nat.add_comm (4 * i),
      ← Nat.add_assoc]

end Image

/-- A packet of the image: its last word is the first from its start that ends a packet, and every span of the image's
bytes that holds it decodes to it. -/
structure ImagePacket (T : DecodeTables) (image : Nat → BitVec 8) (x : AddressInfo) : Prop where
  aligned : x.startAddr % 4 = 0
  few : x.pkt.encodPktSizeInBytes ≤ 4 * instructionsMax
  pos : 0 < x.pkt.encodPktSizeInBytes
  words : x.pkt.encodPktSizeInBytes % 4 = 0
  ends : isPacketEnd (wordAt image (x.startAddr + x.pkt.encodPktSizeInBytes - 4)) = true
  before : ∀ a, a % 4 = 0 → x.startAddr ≤ a → a + 4 < x.startAddr + x.pkt.encodPktSizeInBytes →
    isPacketEnd (wordAt image a) = false
  decoded : ∀ n, x.pkt.encodPktSizeInBytes ≤ 4 * n → n < 2 ^ 31 →
    (decodePacket T (dataWords (imageBytes image x.startAddr (4 * n)))).outcome = .packet x.pkt

/-- What holds of the database of an image. -/
structure ImageSound (T : DecodeTables) (image : Nat → BitVec 8) (db : PacketDb) : Prop where
  disjoint : ∀ a b x y, stored db a = some x → stored db b = some y → x ≠ y → ∀ c, x.Covers c → ¬ y.Covers c
  whole : Whole db
  packets : ∀ a x, stored db a = some x → ImagePacket T image x

/-- `GetInstructionInfo`, `GetInstructionText` and `GetInstructionLowLevelIL` up to the instruction they describe; no
outcome where the `CHECK` fails. -/
def request (T : DecodeTables) (db : PacketDb) (data : List (BitVec 8)) (addr : Nat) :
    Option (PacketDb × Option InsnInfo) :=
  match lookup db addr with
  | some i => some (db, some i)
  | none => do
    let r ← addBytes T db data addr
    if r.2 then (lookup r.1 addr).map fun i => (r.1, some i) else some (r.1, none)

/-- A request at an aligned address, with the bytes the image has from there, or fewer. -/
structure ImageRequest where
  addr : Nat
  len : Nat
  aligned : addr % 4 = 0
  addr_lt : addr < 2 ^ 64
  fits : addr + len ≤ 2 ^ 64

/-- The states of the database under requests over an image. -/
inductive Reached (T : DecodeTables) (image : Nat → BitVec 8) : PacketDb → Prop
  | init : Reached T image IntervalMap.empty
  | step {db db' : PacketDb} {res : Option InsnInfo} (r : ImageRequest) (hdb : Reached T image db)
      (h : request T db (imageBytes image r.addr r.len) r.addr = some (db', res)) : Reached T image db'

/-- An address keeps its packet, or gets one with the same end and an earlier start. -/
def Extends (db db' : PacketDb) : Prop :=
  ∀ a x, stored db a = some x → ∃ y, stored db' a = some y ∧
    (y = x ∨ y.startAddr < x.startAddr ∧
      y.startAddr + y.pkt.encodPktSizeInBytes = x.startAddr + x.pkt.encodPktSizeInBytes)

section Overlap

variable {T : DecodeTables} {image : Nat → BitVec 8} {x y : AddressInfo}

theorem maxWords_eq {n : Nat} (h : n < 2 ^ 31) : maxWords n = n := by
  unfold maxWords
  rw [BitVec.toInt_eq_toNat_of_lt (by rw [BitVec.toNat_ofNat]; omega), BitVec.toNat_ofNat]
  omega

theorem ImagePacket.same_end (hx : ImagePacket T image x) (hy : ImagePacket T image y) {c : Nat} (hxc : x.Covers c)
    (hyc : y.Covers c) :
    x.startAddr + x.pkt.encodPktSizeInBytes = y.startAddr + y.pkt.encodPktSizeInBytes := by
  obtain ⟨ax, -, px, wx, ex, bx, -⟩ := hx
  obtain ⟨ay, -, py, wy, ey, by', -⟩ := hy
  unfold AddressInfo.Covers at hxc hyc
  by_contra hne
  rcases Nat.lt_or_gt_of_ne hne with h | h
  · have := by' (x.startAddr + x.pkt.encodPktSizeInBytes - 4) (by omega) (by omega) (by omega)
    rw [ex] at this
    cases this
  · have := bx (y.startAddr + y.pkt.encodPktSizeInBytes - 4) (by omega) (by omega) (by omega)
    rw [ey] at this
    cases this

theorem ImagePacket.eq_of_start (hx : ImagePacket T image x) (hy : ImagePacket T image y)
    (h : x.startAddr = y.startAddr) : x = y := by
  have hfx := hx.few
  have hfy := hy.few
  simp only [instructionsMax] at hfx hfy
  have hdx := hx.decoded 7 (by omega) (by decide)
  have hdy := hy.decoded 7 (by omega) (by decide)
  rw [h] at hdx
  have hpkt := DecodeOutcome.packet.inj (hdx.symm.trans hdy)
  cases x
  cases y
  exact congrArg₂ AddressInfo.mk h hpkt

/-- The packets one `AddBytes` takes out of an image: each begins where the call does or behind a packet's last word. -/
theorem Decodes.ofImage {words : List (BitVec 32)} {addr : Nat} {l : List AddressInfo} (h : Decodes T words addr l) :
    ∀ m, words = imageWords image addr m → addr % 4 = 0 → addr + 4 * m ≤ 2 ^ 64 →
      ∀ x ∈ l, ImagePacket T image x ∧
        (x.startAddr = addr ∨ addr < x.startAddr ∧ isPacketEnd (wordAt image (x.startAddr - 4)) = true) := by
  induction h with
  | done | stop => exact fun _ _ _ _ _ h => nomatch h
  | @next words addr p l hw hp hl ih =>
    rintro m rfl ha hm
    obtain ⟨k, hk, hspan, hsame⟩ := decodePacket_span hp hw
    have hsize := hk.size
    have hfew := hk.few
    have hlong := hk.long
    rw [length_imageWords] at hlong
    have hends : isPacketEnd (wordAt image (addr + 4 * k)) = true := by
      have := hk.ends
      rwa [getElem?_imageWords addr hlong, Option.any_some] at this
    have hpacket : ImagePacket T image ⟨addr, p⟩ := by
      simp only [instructionsMax] at hfew
      refine ⟨ha, by simp only [instructionsMax]; omega, hk.pos, by dsimp only; omega, ?_, fun a ha' h₁ h₂ => ?_,
        fun n hn hmax => ?_⟩
      · dsimp only
        rw [hsize, show addr + 4 * (k + 1) - 4 = addr + 4 * k by omega]
        exact hends
      · dsimp only at h₁ h₂
        have hword := hk.before ((a - addr) / 4) (by omega)
        rwa [getElem?_imageWords addr (by omega), Option.any_some,
          show addr + 4 * ((a - addr) / 4) = a by omega] at hword
      · dsimp only at hn ⊢
        rw [dataWords_imageBytes, hsame _ (by rw [length_imageWords, maxWords_eq hmax]; omega) fun i hi => ?_, hp]
        rw [getElem?_imageWords addr (by omega), getElem?_imageWords addr (by omega)]
    refine List.forall_mem_cons.2 ⟨⟨hpacket, .inl rfl⟩, fun x hx => ?_⟩
    rw [hk.drop, drop_imageWords] at ih hl
    by_cases hmore : m = k + 1
    · rw [hmore, Nat.sub_self, imageWords] at hl
      rw [hl.unique (.done _)] at hx
      cases hx
    · have hnext : addrAfter addr p = addr + 4 * (k + 1) := by
        unfold addrAfter
        omega
      rw [hnext] at ih
      obtain ⟨hximage, hbegin⟩ := ih (m - (k + 1)) rfl (by omega) (by omega) x hx
      refine ⟨hximage, .inr ?_⟩
      rcases hbegin with hbegin | ⟨hlt, hbegin⟩
      · rw [hbegin, show addr + 4 * (k + 1) - 4 = addr + 4 * k by omega]
        exact ⟨by omega, hends⟩
      · exact ⟨by omega, hbegin⟩

end Overlap

section Requests

variable {T : DecodeTables} {image : Nat → BitVec 8} {db db' : PacketDb}

theorem Extends.refl (db : PacketDb) : Extends db db := fun _ x hx => ⟨x, hx, .inl rfl⟩

/-- The packets a call adds at an address without a packet take in every packet they meet. -/
theorem Decodes.takesIn {addr m : Nat} {l : List AddressInfo} (h : Decodes T (imageWords image addr m) addr l)
    (ha : addr % 4 = 0) (hm : addr + 4 * m ≤ 2 ^ 64) (hs : ImageSound T image db) (hmiss : stored db addr = none)
    {a c : Nat} {x y : AddressInfo} (hx : stored db a = some x) (hy : y ∈ l) (hxc : x.Covers c) (hyc : y.Covers c) :
    y.startAddr ≤ x.startAddr ∧
      y.startAddr + y.pkt.encodPktSizeInBytes = x.startAddr + x.pkt.encodPktSizeInBytes := by
  obtain ⟨hyimage, hbegin⟩ := h.ofImage m rfl ha hm y hy
  have hximage := hs.packets a x hx
  have hend := hximage.same_end hyimage hxc hyc
  refine ⟨?_, hend.symm⟩
  by_contra hlt
  have hax := hximage.aligned
  have hay := hyimage.aligned
  have hpos := hyimage.pos
  rcases hbegin with hbegin | ⟨-, hbegin⟩
  · have hcov : x.Covers addr := by
      unfold AddressInfo.Covers
      omega
    rw [hs.whole.whole a x hx addr hcov] at hmiss
    cases hmiss
  · rw [hximage.before (y.startAddr - 4) (by omega) (by omega) (by omega)] at hbegin
    cases hbegin

/-- **A call at an address without a packet keeps the database sound.** -/
theorem ImageSound.addBytes {r : ImageRequest} {ok : Bool} (hs : ImageSound T image db) (hb : Below db)
    (hmiss : stored db r.addr = none)
    (h : addBytes T db (imageBytes image r.addr r.len) r.addr = some (db', ok)) :
    ImageSound T image db' ∧ Below db' ∧ Extends db db' := by
  obtain ⟨l, hl, hnil, heq⟩ := addBytes_some h
  obtain ⟨rfl, -⟩ := Prod.mk.inj heq
  rw [length_imageBytes] at hl hnil
  by_cases hmod : r.len % 4 = 0
  swap
  · rw [hnil hmod]
    exact ⟨hs, hb, .refl db⟩
  obtain ⟨m, hm⟩ : ∃ m, r.len = 4 * m := ⟨r.len / 4, by omega⟩
  have hdecodes := hl hmod
  rw [hm, dataWords_imageBytes] at hdecodes
  have hfits := r.fits
  have haddr := r.addr_lt
  rw [hm] at hfits
  have hsmall := hdecodes.small r.addr_lt
  have himage := hdecodes.ofImage m rfl r.aligned hfits
  have hdisjoint := hdecodes.disjoint r.addr_lt (by rw [length_imageWords]; omega)
  have hstored := stored_insertAll db hsmall hdisjoint
  have hwhole : Whole (insertAll l db) := by
    refine (whole_insertAll_iff hs.whole hsmall hdisjoint).2 fun a x hx => ?_
    by_cases hmeet : ∃ c, x.Covers c ∧ Written l c
    · obtain ⟨c, hxc, y, hy, hlands, hyc⟩ := hmeet
      obtain ⟨hle, hend⟩ := hdecodes.takesIn r.aligned hfits hs hmiss hx hy hxc hyc
      refine .inl fun b hb => ⟨y, hy, hlands, ?_⟩
      unfold AddressInfo.Covers at hb ⊢
      omega
    · exact .inr fun b hb hw => hmeet ⟨b, hb, hw⟩
  refine ⟨⟨?_, hwhole, fun a x hx => ?_⟩, hb.insertAll hsmall hdisjoint, fun a x hx => ?_⟩
  · intro a b x y hx hy hne c hxc hyc
    have hxs := hwhole.whole a x hx c hxc
    rw [hwhole.whole b y hy c hyc] at hxs
    exact hne (Option.some.inj hxs).symm
  · by_cases hw : Written l a
    · obtain ⟨y, hy, hlands, hcovers⟩ := hw
      rw [(hstored a).1 y hy hlands hcovers] at hx
      obtain rfl := Option.some.inj hx
      exact (himage y hy).1
    · rw [(hstored a).2 hw] at hx
      exact hs.packets a x hx
  · by_cases hw : Written l a
    · obtain ⟨y, hy, hlands, hcovers⟩ := hw
      obtain ⟨hle, hend⟩ := hdecodes.takesIn r.aligned hfits hs hmiss hx hy (hs.whole.covers a x hx) hcovers
      refine ⟨y, (hstored a).1 y hy hlands hcovers, ?_⟩
      rcases Nat.eq_or_lt_of_le hle with heq | hlt
      · exact .inl ((himage y hy).1.eq_of_start (hs.packets a x hx) heq)
      · exact .inr ⟨hlt, hend⟩
    · exact ⟨x, by rw [(hstored a).2 hw]; exact hx, .inl rfl⟩

theorem stored_none_of_lookup {addr : Nat} (h : lookup db addr = none) : stored db addr = none := by
  rw [lookup_eq, Option.map_eq_none_iff] at h
  exact h

/-- A request: the database stays sound, and what it returns is a packet at its address. -/
theorem ImageSound.request {r : ImageRequest} {res : Option InsnInfo} (hs : ImageSound T image db) (hb : Below db)
    (h : request T db (imageBytes image r.addr r.len) r.addr = some (db', res)) :
    (ImageSound T image db' ∧ Below db' ∧ Extends db db') ∧ ∀ i, res = some i → lookup db' r.addr = some i := by
  unfold Hex.request at h
  split at h
  · rename_i i hi
    cases h
    exact ⟨⟨hs, hb, .refl db⟩, fun j hj => by rw [hi, ← hj]⟩
  · rename_i hmiss
    obtain ⟨⟨db₁, ok⟩, hadd, h⟩ := Option.bind_eq_some_iff.1 h
    have hstep := hs.addBytes hb (stored_none_of_lookup hmiss) hadd
    cases ok with
    | false =>
      cases h
      exact ⟨hstep, nofun⟩
    | true =>
      obtain ⟨i, hi, h⟩ := Option.map_eq_some_iff.1 h
      cases h
      exact ⟨hstep, fun j hj => by rw [← hj]; exact hi⟩

theorem Reached.sound (h : Reached T image db) : ImageSound T image db ∧ Below db := by
  induction h with
  | init =>
    refine ⟨⟨fun a _ x _ hx => ?_, whole_empty, fun a x hx => ?_⟩, below_empty⟩
    · rw [stored_empty] at hx
      cases hx
    · rw [stored_empty] at hx
      cases hx
  | step r _ h ih =>
    obtain ⟨⟨hs, hb, -⟩, -⟩ := ih.1.request ih.2 h
    exact ⟨hs, hb⟩

end Requests

/-- **Requests over one image keep the database sound**: its packets are disjoint, whole and the image's own; a request
uncovers no address and only lengthens packets towards lower addresses; one that succeeds resolves its address. -/
theorem reached_sound (T : DecodeTables) (image : Nat → BitVec 8) (db : PacketDb) (h : Reached T image db) :
    ImageSound T image db ∧ ∀ (r : ImageRequest) (db' : PacketDb) (res : Option InsnInfo),
      request T db (imageBytes image r.addr r.len) r.addr = some (db', res) →
        Extends db db' ∧ ∀ i, res = some i → lookup db' r.addr = some i ∧ i.pc ≤ r.addr ∧
          r.addr < i.pc + i.pkt.encodPktSizeInBytes := by
  obtain ⟨hs, hb⟩ := h.sound
  refine ⟨hs, fun r db' res hreq => ?_⟩
  obtain ⟨⟨hs', hb', hext⟩, hres⟩ := hs.request hb hreq
  refine ⟨hext, fun i hi => ?_⟩
  have hlook := hres i hi
  obtain ⟨h₁, h₂, -⟩ := (wholePackets_iff hb').2 hs'.whole r.addr i r.addr_lt hlook
  exact ⟨hlook, h₁, h₂⟩

/-- `{ nop; nop }` at address 0, the rest zeros. -/
def nopImage (a : Nat) : BitVec 8 := [0, 0x40, 0, 0x7f, 0, 0xc0, 0, 0x7f].getD a 0

/-- A request in the middle of the packet, and then one at its start. -/
theorem reached_sound_nops : ∃ db, Reached nopTables nopImage db ∧
    (lookup db 4).map (fun i => (i.pc, i.insnNum)) = some (0, 1) ∧ ImageSound nopTables nopImage db := by
  have hmid := @Reached.step nopTables nopImage _ _ _ ⟨4, 4, by decide, by decide, by decide⟩ .init rfl
  have hstart := hmid.step ⟨0, 8, by decide, by decide, by decide⟩ rfl
  exact ⟨_, hstart, by decide +kernel, (reached_sound nopTables nopImage _ hstart).1⟩

end Hex
