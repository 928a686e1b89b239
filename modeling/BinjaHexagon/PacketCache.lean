import BinjaHexagon.PacketImage
/-!
# PacketCache — the callbacks of `HexagonArchitecture` and their one database

A packet that is looked up was decoded from the bytes of an earlier call.
-/
namespace Hex

/-- A callback; `fill` describes the instruction, as `FillBnInstructionInfo` does. -/
def callback {β : Type} (fill : InsnInfo → Option β) (T : DecodeTables) (db : PacketDb) (data : List (BitVec 8))
    (addr : Nat) : Option (PacketDb × Option β) :=
  (request T db data addr).map fun r => (r.1, r.2.bind fill)

/-- `GetInstructionInfo`. -/
def getInstructionInfo :
    DecodeTables → PacketDb → List (BitVec 8) → Nat → Option (PacketDb × Option (List InfoBranch)) :=
  callback fillBnInstructionInfo

/-- The database after calls of the callbacks. -/
def runCalls (T : DecodeTables) : PacketDb → List AddCall → Option PacketDb
  | db, [] => some db
  | db, c :: cs => (request T db c.data c.addr).bind fun r => runCalls T r.1 cs

/-- What is decoded from the call's own data, where the database has a packet that starts at its address; and what an
empty database answers. -/
def CacheTransparent (T : DecodeTables) (db : PacketDb) (c : AddCall) : Prop :=
  ∀ i, lookup db c.addr = some i → i.pc = c.addr →
    ∃ p, (decodePacket T (dataWords c.data)).outcome = .packet p ∧ ∀ (β : Type) (fill : InsnInfo → Option β),
      callback fill T db c.data c.addr = some (db, fill (findInstructionInPacket c.addr p c.addr)) ∧
      ∀ r, callback fill T IntervalMap.empty c.data c.addr = some r →
        r.2 = fill (findInstructionInPacket c.addr p c.addr)

/-- The data hold a packet of `k + 1` words, and no earlier call had other bytes at its addresses. -/
def SameBytes (calls : List AddCall) (c : AddCall) : Prop :=
  c.data.length % 4 = 0 ∧ ∃ k < maxWords (c.data.length / 4), (dataWords c.data)[k]?.any isPacketEnd = true ∧
    (∀ i < k, (dataWords c.data)[i]?.any isPacketEnd = false) ∧
      ∀ d ∈ calls, ∀ o o', o < 4 * (k + 1) → o' < d.data.length → (d.addr + o') % 2 ^ 64 = (c.addr + o) % 2 ^ 64 →
        d.data[o']? = c.data[o]?

section Bytes

theorem getElem?_dataWords : ∀ (l : List (BitVec 8)) (i : Nat), 4 * i + 3 < l.length →
    (dataWords l)[i]? =
      some (l.getD (4 * i + 3) 0 ++ l.getD (4 * i + 2) 0 ++ l.getD (4 * i + 1) 0 ++ l.getD (4 * i) 0)
  | [], _, h | [_], _, h | [_, _], _, h | [_, _, _], _, h => by
    simp only [List.length_nil, List.length_cons] at h
    omega
  | a :: b :: c :: d :: l, 0, _ => rfl
  | a :: b :: c :: d :: l, i + 1, h => by
    simp only [List.length_cons] at h
    rw [dataWords, List.getElem?_cons_succ, getElem?_dataWords l i (by omega)]
    simp only [Nat.mul_succ, List.getD_eq_getElem?_getD, List.getElem?_cons_succ, Nat.add_assoc, Nat.add_comm 4]

end Bytes

/-- Where a packet of the database comes from. -/
structure CachedFrom (T : DecodeTables) (d : AddCall) (x : AddressInfo) (j : Nat) : Prop where
  start : (d.addr + 4 * j) % 2 ^ 64 = x.startAddr
  words : d.data.length % 4 = 0
  outcome : (decodePacket T ((dataWords d.data).drop j)).outcome = .packet x.pkt
  writes : InArray (decodePacket T ((dataWords d.data).drop j)).writes
  lands : x.Lands

section Cached

variable {T : DecodeTables}

theorem Decodes.cachedFrom {words : List (BitVec 32)} {addr : Nat} {l : List AddressInfo} (h : Decodes T words addr l) :
    addr < 2 ^ 64 → ∀ x ∈ l, ∃ j, (addr + 4 * j) % 2 ^ 64 = x.startAddr ∧
      (decodePacket T (words.drop j)).outcome = .packet x.pkt ∧ InArray (decodePacket T (words.drop j)).writes := by
  induction h with
  | done | stop => exact fun _ _ h => nomatch h
  | @next words addr p l hw hp _ ih =>
    intro ha
    refine List.forall_mem_cons.2 ⟨⟨0, Nat.mod_eq_of_lt ha, hp, hw⟩, fun x hx => ?_⟩
    obtain ⟨k, hk, -⟩ := decodePacket_span hp hw
    have hsize := hk.size
    obtain ⟨j, hj, hout, hwrites⟩ := ih (Nat.mod_lt _ (by decide)) x hx
    rw [List.drop_drop, hk.drop] at hout hwrites
    refine ⟨k + 1 + j, ?_, hout, hwrites⟩
    rw [← hj, addrAfter]
    omega

theorem Decodes.head {words : List (BitVec 32)} {addr : Nat} {l : List AddressInfo} {p : Packet}
    (h : Decodes T words addr l) (hp : (decodePacket T words).outcome = .packet p) : ∃ l', l = ⟨addr, p⟩ :: l' := by
  cases h with
  | done => exact absurd hp (decodePacket_nil p)
  | stop _ _ hno => exact absurd hp (hno p)
  | next _ hp' _ =>
    obtain rfl := DecodeOutcome.packet.inj (hp.symm.trans hp')
    exact ⟨_, rfl⟩

/-- Every packet of the database comes from one of the calls. -/
def Cached (T : DecodeTables) (calls : List AddCall) (db : PacketDb) : Prop :=
  ∀ a x, stored db a = some x → ∃ d ∈ calls, ∃ j, CachedFrom T d x j

theorem Cached.mono {calls calls' : List AddCall} {db : PacketDb} (h : Cached T calls db) (hsub : calls ⊆ calls') :
    Cached T calls' db := fun a x hx => by
  obtain ⟨d, hd, hj⟩ := h a x hx
  exact ⟨d, hsub hd, hj⟩

theorem Cached.addBytes {calls : List AddCall} {db db' : PacketDb} {c : AddCall} {ok : Bool} (h : Cached T calls db)
    (hadd : addBytes T db c.data c.addr = some (db', ok)) : Cached T (calls ++ [c]) db' := by
  have hold : Cached T (calls ++ [c]) db := h.mono (List.subset_append_left _ _)
  obtain ⟨l, hl, hnil, heq⟩ := addBytes_some hadd
  obtain ⟨rfl, -⟩ := Prod.mk.inj heq
  by_cases hmod : c.data.length % 4 = 0
  · intro a x hx
    obtain ⟨hin, hout⟩ := stored_insertAll db ((hl hmod).small c.addr_lt)
      ((hl hmod).disjoint c.addr_lt (c.fits rfl)) a
    by_cases hw : Written l a
    · obtain ⟨y, hy, hlands, hcovers⟩ := hw
      rw [hin y hy hlands hcovers] at hx
      obtain rfl := Option.some.inj hx
      obtain ⟨j, hj, hout, hwrites⟩ := (hl hmod).cachedFrom c.addr_lt y hy
      exact ⟨c, List.mem_append_right _ (List.mem_singleton_self c), j, hj, hmod, hout, hwrites, hlands⟩
    · rw [hout hw] at hx
      exact hold a x hx
  · rw [hnil hmod]
    exact hold

theorem Cached.request {calls : List AddCall} {db : PacketDb} {c : AddCall} {r : PacketDb × Option InsnInfo}
    (h : Cached T calls db) (hreq : request T db c.data c.addr = some r) : Cached T (calls ++ [c]) r.1 := by
  unfold Hex.request at hreq
  split at hreq
  · cases hreq
    exact h.mono (List.subset_append_left _ _)
  · obtain ⟨⟨db₁, ok⟩, hadd, hreq⟩ := Option.bind_eq_some_iff.1 hreq
    have hstep := h.addBytes hadd
    cases ok with
    | false =>
      cases hreq
      exact hstep
    | true =>
      obtain ⟨i, -, hreq⟩ := Option.map_eq_some_iff.1 hreq
      cases hreq
      exact hstep

theorem cached_runCalls : ∀ {calls before : List AddCall} {db db' : PacketDb}, Cached T before db →
    runCalls T db calls = some db' → Cached T (before ++ calls) db'
  | [], before, db, db', h, hrun => by
    cases hrun
    rw [List.append_nil]
    exact h
  | c :: cs, before, db, db', h, hrun => by
    obtain ⟨r, hreq, hrun⟩ := Option.bind_eq_some_iff.1 hrun
    have := cached_runCalls (h.request hreq) hrun
    rwa [List.append_assoc, List.singleton_append] at this

theorem words_agree {c d : AddCall} {k j i : Nat} (hlen : c.data.length % 4 = 0) (hdlen : d.data.length % 4 = 0)
    (hstart : (d.addr + 4 * j) % 2 ^ 64 = c.addr)
    (hsame : ∀ o o', o < 4 * (k + 1) → o' < d.data.length → (d.addr + o') % 2 ^ 64 = (c.addr + o) % 2 ^ 64 →
      d.data[o']? = c.data[o]?)
    (hi : i ≤ k) (hc : i < (dataWords c.data).length) (hd : i < ((dataWords d.data).drop j).length) :
    ((dataWords d.data).drop j)[i]? = (dataWords c.data)[i]? := by
  rw [length_dataWords] at hc
  rw [List.length_drop, length_dataWords] at hd
  rw [List.getElem?_drop, getElem?_dataWords _ _ (by omega), getElem?_dataWords _ _ (by omega)]
  have hbyte : ∀ b < 4, d.data.getD (4 * (j + i) + b) 0 = c.data.getD (4 * i + b) 0 := by
    intro b hb
    rw [List.getD_eq_getElem?_getD, List.getD_eq_getElem?_getD,
      hsame (4 * i + b) (4 * (j + i) + b) (by omega) (by omega) (by omega)]
  have h₀ := hbyte 0 (by decide)
  rw [Nat.add_zero, Nat.add_zero] at h₀
  rw [h₀, hbyte 1 (by decide), hbyte 2 (by decide), hbyte 3 (by decide)]

/-- A packet of the database that starts at the call's address is the one its data give. -/
theorem CachedFrom.decode {calls : List AddCall} {c d : AddCall} {x : AddressInfo} {j : Nat} (h : CachedFrom T d x j)
    (hd : d ∈ calls) (hstart : x.startAddr = c.addr) (hsame : SameBytes calls c) :
    (decodePacket T (dataWords c.data)).outcome = .packet x.pkt ∧
      InArray (decodePacket T (dataWords c.data)).writes := by
  obtain ⟨hlen, k, hk, hends, hbefore, hbytes⟩ := hsame
  obtain ⟨k', hspan, -, hcongr⟩ := decodePacket_span h.outcome h.writes
  have hagree : ∀ i, i ≤ k → i ≤ k' → (dataWords c.data)[i]? = ((dataWords d.data).drop j)[i]? := by
    intro i hi hi'
    have hmax := maxWords_le (c.data.length / 4)
    have hlong := hspan.long
    refine (words_agree hlen h.words (h.start.trans hstart) (hbytes d hd) hi ?_ (by omega)).symm
    rw [length_dataWords]
    omega
  obtain rfl : k = k' := by
    rcases Nat.lt_trichotomy k k' with hlt | heq | hlt
    · have := hspan.before k hlt
      rw [← hagree k (Nat.le_refl _) hlt.le, hends] at this
      cases this
    · exact heq
    · have := hbefore k' hlt
      rw [hagree k' hlt.le (Nat.le_refl _), hspan.ends] at this
      cases this
  have heq := hcongr (dataWords c.data) (by rw [length_dataWords]; exact hk) fun i hi => hagree i hi hi
  rw [heq]
  exact ⟨h.outcome, h.writes⟩

/-- An empty database answers with the packet of the data. -/
theorem request_empty {c : AddCall} {p : Packet} {r : PacketDb × Option InsnInfo}
    (hp : (decodePacket T (dataWords c.data)).outcome = .packet p)
    (hw : InArray (decodePacket T (dataWords c.data)).writes) (hmod : c.data.length % 4 = 0)
    (hlands : AddressInfo.Lands ⟨c.addr, p⟩) (h : request T IntervalMap.empty c.data c.addr = some r) :
    r.2 = some (findInstructionInPacket c.addr p c.addr) := by
  have hmiss : lookup IntervalMap.empty c.addr = none := by rw [lookup_eq, stored_empty]; rfl
  unfold request at h
  rw [hmiss] at h
  obtain ⟨⟨db, ok⟩, hadd, h⟩ := Option.bind_eq_some_iff.1 h
  obtain ⟨l, hl, -, heq⟩ := addBytes_some hadd
  obtain ⟨rfl, rfl⟩ := Prod.mk.inj heq
  have hdecodes := hl hmod
  obtain ⟨l, rfl⟩ := hdecodes.head hp
  obtain ⟨k, hk, -⟩ := decodePacket_span hp hw
  have hstored := (stored_insertAll IntervalMap.empty (hdecodes.small c.addr_lt)
    (hdecodes.disjoint c.addr_lt (c.fits rfl)) c.addr).1 ⟨c.addr, p⟩ List.mem_cons_self hlands
    ⟨Nat.le_refl _, by have := hk.pos; dsimp only; omega⟩
  obtain ⟨i, hi, h⟩ := Option.map_eq_some_iff.1 h
  rw [lookup_eq, hstored, Option.map_some] at hi
  cases h
  exact hi.symm

end Cached

/-- **A lookup of the shared database answers as a decode of the call's own data does, in every run where no earlier
call had other bytes at the packet's addresses.** -/
theorem cache_transparent (T : DecodeTables) (calls : List AddCall) (db : PacketDb) (c : AddCall)
    (h : runCalls T IntervalMap.empty calls = some db) (hsame : SameBytes calls c) : CacheTransparent T db c := by
  intro i hi hpc
  have hcached := @cached_runCalls T calls [] _ _ (fun a x hx => by rw [stored_empty] at hx; cases hx) h
  have hlook := hi
  rw [lookup_eq] at hi
  obtain ⟨x, hx, rfl⟩ := Option.map_eq_some_iff.1 hi
  obtain ⟨d, hd, j, hfrom⟩ := hcached c.addr x hx
  obtain ⟨hp, hw⟩ := hfrom.decode hd hpc hsame
  have hlands := hfrom.lands
  have hstart : x.startAddr = c.addr := hpc
  rw [hstart] at hlook
  refine ⟨x.pkt, hp, fun β fill => ⟨?_, fun r hr => ?_⟩⟩
  · unfold callback request
    rw [hlook]
    rfl
  · obtain ⟨r', hr', rfl⟩ := Option.map_eq_some_iff.1 hr
    rw [request_empty hp hw hsame.1 (by rw [← hstart]; exact hlands) hr']
    rfl

/-- `r0=add(r1,#0)` and `jump #4`. -/
def patchTables : DecodeTables :=
  wordTables [(0xb0010000, Opcodes.a2Addi.insn [0, 1] [0] (by decide)),
    (0x58000002, Opcodes.j2Jump.insn [] [4] (by decide))]

/-- The same call again. -/
theorem cache_transparent_again : ∃ db, runCalls patchTables IntervalMap.empty
    [⟨[0, 0xc0, 1, 0xb0], 0, by decide, by decide, by decide⟩] = some db ∧
      CacheTransparent patchTables db ⟨[0, 0xc0, 1, 0xb0], 0, by decide, by decide, by decide⟩ := by
  refine ⟨_, rfl, cache_transparent patchTables [⟨[0, 0xc0, 1, 0xb0], 0, by decide, by decide, by decide⟩] _ _ rfl
    ⟨rfl, 0, by decide, by decide +kernel, nofun, ?_⟩⟩
  intro d hd o o' ho ho' h
  obtain rfl := List.mem_singleton.1 hd
  simp only [List.length_cons, List.length_nil] at ho' h
  rw [show o' = o by omega]

/-- An addition that was patched to a jump is still reported without a branch. -/
theorem patched_packet_cached : ∃ db, runCalls patchTables IntervalMap.empty
    [⟨[0, 0xc0, 1, 0xb0], 0, by decide, by decide, by decide⟩] = some db ∧
      (getInstructionInfo patchTables db [2, 0xc0, 0, 0x58] 0).map (·.2) = some (some []) ∧
      (getInstructionInfo patchTables IntervalMap.empty [2, 0xc0, 0, 0x58] 0).map (·.2) =
        some (some [⟨.unconditionalBranch, some 4⟩]) ∧
      ¬ CacheTransparent patchTables db ⟨[2, 0xc0, 0, 0x58], 0, by decide, by decide, by decide⟩ := by
  refine ⟨_, rfl, by decide +kernel, by decide +kernel, fun h => ?_⟩
  obtain ⟨p, -, hall⟩ := h _ rfl (by decide +kernel)
  obtain ⟨hdb, hempty⟩ := hall _ fillBnInstructionInfo
  have hfresh := hempty _ rfl
  have hcached := congrArg (Option.map Prod.snd) hdb
  rw [Option.map_some, ← hfresh] at hcached
  exact absurd hcached (by decide +kernel)

end Hex
