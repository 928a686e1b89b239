import BinjaHexagon.PacketDb
/-!
# PacketWhole — packets that later insertions cut

`AddBytes` overwrites the range of its own packets.  An older packet is left whole, goes, or is cut; a cut one is still
looked up.
-/
namespace Hex

/-- Every packet that is looked up is there from its first byte to its last. -/
def WholePackets (db : PacketDb) : Prop :=
  ∀ a i, a < 2 ^ 64 → lookup db a = some i → i.pc ≤ a ∧ a < i.pc + i.pkt.encodPktSizeInBytes ∧
    ∀ b, i.pc ≤ b → b < i.pc + i.pkt.encodPktSizeInBytes →
      ∃ j, lookup db b = some j ∧ j.pc = i.pc ∧ j.pkt = i.pkt

/-- A call of `AddBytes`; a span has less than `2 ^ 64` bytes. -/
structure AddCall where
  data : List (BitVec 8)
  addr : Nat
  data_lt : data.length < 2 ^ 64
  addr_lt : addr < 2 ^ 64
  aligned : addr % 4 = 0

/-- One call after the other. -/
def runAdds (T : DecodeTables) : PacketDb → List AddCall → Option PacketDb
  | db, [] => some db
  | db, c :: cs => (addBytes T db c.data c.addr).bind fun r => runAdds T r.1 cs

/-- The packets of the call's data cut no packet of the database: they overwrite the whole of it, or nothing. -/
def CutsNone (T : DecodeTables) (db : PacketDb) (c : AddCall) : Prop :=
  c.data.length % 4 = 0 → ∀ l, Decodes T (dataWords c.data) c.addr l → ∀ a x, stored db a = some x →
    (∀ b, x.Covers b → Written l b) ∨ ∀ b, x.Covers b → ¬ Written l b

section Whole

variable {T : DecodeTables}

theorem decodePacket_nil (p : Packet) : (decodePacket T []).outcome ≠ .packet p := by
  intro hp
  obtain ⟨pre, last, rest, -, hwords, -⟩ := decodePacket_packet hp
  simp at hwords

theorem Decodes.unique {words : List (BitVec 32)} {addr : Nat} {l l' : List AddressInfo} (h : Decodes T words addr l)
    (h' : Decodes T words addr l') : l = l' := by
  induction h generalizing l' with
  | done addr =>
    cases h' with
    | done | stop => rfl
    | next _ hp _ => exact absurd hp (decodePacket_nil _)
  | stop addr _ hno =>
    cases h' with
    | done | stop => rfl
    | next _ hp _ => exact absurd hp (hno _)
  | next _ hp _ ih =>
    cases h' with
    | done => exact absurd hp (decodePacket_nil _)
    | stop _ _ hno => exact absurd hp (hno _)
    | next _ hp' hl' =>
      obtain rfl := DecodeOutcome.packet.inj (hp.symm.trans hp')
      rw [ih hl']

/-- The database by its packets: each is where it says. -/
structure Whole (db : PacketDb) : Prop where
  covers : ∀ a x, stored db a = some x → x.Covers a
  whole : ∀ a x, stored db a = some x → ∀ b, x.Covers b → stored db b = some x

/-- No packet reaches the top. -/
def Below (db : PacketDb) : Prop := ∀ a x, stored db a = some x → a < 2 ^ 64 ∧ x.Lands

theorem wholePackets_iff {db : PacketDb} (hb : Below db) : WholePackets db ↔ Whole db := by
  unfold WholePackets
  simp only [lookup_eq, Option.map_eq_some_iff]
  constructor
  · intro h
    have hcov : ∀ a x, stored db a = some x → x.Covers a ∧ ∀ b, x.Covers b → stored db b = some x := by
      intro a x hx
      obtain ⟨h₁, h₂, h₃⟩ := h a _ (hb a x hx).1 ⟨x, hx, rfl⟩
      refine ⟨⟨h₁, h₂⟩, fun b hxb => ?_⟩
      obtain ⟨j, ⟨y, hy, rfl⟩, hpc, hpkt⟩ := h₃ b hxb.1 hxb.2
      have : y = x := by
        cases y
        cases x
        exact congrArg₂ AddressInfo.mk hpc hpkt
      rw [hy, this]
    exact ⟨fun a x hx => (hcov a x hx).1, fun a x hx => (hcov a x hx).2⟩
  · rintro ⟨hcov, hwhole⟩ a i - ⟨x, hx, rfl⟩
    refine ⟨(hcov a x hx).1, (hcov a x hx).2, fun b h₁ h₂ => ?_⟩
    exact ⟨_, ⟨x, hwhole a x hx b ⟨h₁, h₂⟩, rfl⟩, rfl, rfl⟩

section Step

variable {db : PacketDb} {l : List AddressInfo}

theorem stored_insertAll (db : PacketDb) (hs : ∀ x ∈ l, x.Small)
    (hd : l.Pairwise fun x y => x.Lands → y.Lands → ∀ a, x.Covers a → ¬ y.Covers a) (a : Nat) :
    (∀ x ∈ l, x.Lands → x.Covers a → stored (insertAll l db) a = some x) ∧
      (¬ Written l a → stored (insertAll l db) a = stored db a) := by
  obtain ⟨hin, hout⟩ := find_insertAll db a hs hd
  refine ⟨fun x hx hlands hcovers => stored_some.2 ⟨hin x hx hlands hcovers, (hs x hx).pos⟩, fun hno => ?_⟩
  unfold stored
  rw [hout hno]

theorem Below.insertAll (hb : Below db) (hs : ∀ x ∈ l, x.Small)
    (hd : l.Pairwise fun x y => x.Lands → y.Lands → ∀ a, x.Covers a → ¬ y.Covers a) : Below (insertAll l db) := by
  intro a x hx
  obtain ⟨hin, hout⟩ := stored_insertAll db hs hd a
  by_cases hw : Written l a
  · obtain ⟨y, hy, hlands, hcovers⟩ := hw
    rw [hin y hy hlands hcovers] at hx
    obtain rfl := Option.some.inj hx
    exact ⟨hcovers.2.trans hlands, hlands⟩
  · rw [hout hw] at hx
    exact hb a x hx

/-- **A call leaves whole packets exactly when it cuts none.** -/
theorem whole_insertAll_iff (hwhole : Whole db) (hs : ∀ x ∈ l, x.Small)
    (hd : l.Pairwise fun x y => x.Lands → y.Lands → ∀ a, x.Covers a → ¬ y.Covers a) :
    Whole (insertAll l db) ↔
      ∀ a x, stored db a = some x → (∀ b, x.Covers b → Written l b) ∨ ∀ b, x.Covers b → ¬ Written l b := by
  have hstored := stored_insertAll db hs hd
  constructor
  · intro h a x hx
    by_cases hall : ∀ b, x.Covers b → Written l b
    · exact .inl hall
    · obtain ⟨b, hb⟩ := not_forall.1 hall
      obtain ⟨hb, hno⟩ := Classical.not_imp.1 hb
      have hkept : stored (insertAll l db) b = some x := by
        rw [(hstored b).2 hno]
        exact hwhole.whole a x hx b hb
      refine .inr fun c hc ⟨y, hy, hlands, hcovers⟩ => ?_
      have hyx := (hstored c).1 y hy hlands hcovers
      rw [h.whole b x hkept c hc] at hyx
      obtain rfl := Option.some.inj hyx
      exact hno ⟨x, hy, hlands, hb⟩
  · intro h
    have hcov : ∀ a x, stored (insertAll l db) a = some x →
        x.Covers a ∧ ∀ b, x.Covers b → stored (insertAll l db) b = some x := by
      intro a x hx
      by_cases hw : Written l a
      · obtain ⟨y, hy, hlands, hcovers⟩ := hw
        rw [(hstored a).1 y hy hlands hcovers] at hx
        obtain rfl := Option.some.inj hx
        exact ⟨hcovers, fun b hb => (hstored b).1 y hy hlands hb⟩
      · rw [(hstored a).2 hw] at hx
        have ha := hwhole.covers a x hx
        refine ⟨ha, fun b hb => ?_⟩
        have hnone := (h a x hx).resolve_left fun hall => hw (hall a ha)
        rw [(hstored b).2 (hnone b hb)]
        exact hwhole.whole a x hx b hb
    exact ⟨fun a x hx => (hcov a x hx).1, fun a x hx => (hcov a x hx).2⟩

end Step

section Calls

variable {db db' : PacketDb} {c : AddCall} {ok : Bool}

theorem AddCall.fits {words : List (BitVec 32)} (h : words = dataWords c.data) : 4 * words.length ≤ 2 ^ 64 := by
  have := c.data_lt
  rw [h, length_dataWords]
  omega

theorem Below.addBytes (hb : Below db) (h : addBytes T db c.data c.addr = some (db', ok)) : Below db' := by
  obtain ⟨l, hl, hnil, heq⟩ := addBytes_some h
  obtain ⟨rfl, -⟩ := Prod.mk.inj heq
  by_cases hmod : c.data.length % 4 = 0
  · exact hb.insertAll ((hl hmod).small c.addr_lt) ((hl hmod).disjoint c.addr_lt (c.fits rfl))
  · rw [hnil hmod]
    exact hb

theorem whole_addBytes_iff (hw : Whole db) (h : addBytes T db c.data c.addr = some (db', ok)) :
    Whole db' ↔ CutsNone T db c := by
  obtain ⟨l, hl, hnil, heq⟩ := addBytes_some h
  obtain ⟨rfl, -⟩ := Prod.mk.inj heq
  unfold CutsNone
  by_cases hmod : c.data.length % 4 = 0
  · rw [whole_insertAll_iff hw ((hl hmod).small c.addr_lt) ((hl hmod).disjoint c.addr_lt (c.fits rfl))]
    constructor
    · intro hcut _ l' hl'
      rw [← (hl hmod).unique hl']
      exact hcut
    · intro hcut
      exact hcut hmod l (hl hmod)
  · rw [hnil hmod]
    exact ⟨fun _ h => absurd h hmod, fun _ => hw⟩

/-- A call that is made again overwrites its own packets, each from its first byte to its last. -/
theorem CutsNone.again (hw : Whole db') (h : addBytes T db c.data c.addr = some (db', ok)) : CutsNone T db' c := by
  obtain ⟨l, hl, -, heq⟩ := addBytes_some h
  obtain ⟨rfl, -⟩ := Prod.mk.inj heq
  intro hmod l' hl' a x hx
  obtain rfl := (hl hmod).unique hl'
  by_cases hnone : ∀ b, x.Covers b → ¬ Written l b
  · exact .inr hnone
  · obtain ⟨b, hb⟩ := not_forall.1 hnone
    obtain ⟨hxb, ⟨y, hy, hlands, hyb⟩⟩ : x.Covers b ∧ Written l b := by tauto
    have hstored :=
      (stored_insertAll db (hl'.small c.addr_lt) (hl'.disjoint c.addr_lt (c.fits rfl)) b).1 y hy hlands hyb
    rw [hw.whole a x hx b hxb] at hstored
    obtain rfl := Option.some.inj hstored
    exact .inl fun d hd => ⟨x, hy, hlands, hd⟩

/-- Along a run, whole packets go with calls that cut none. -/
theorem whole_runAdds_iff : ∀ {calls : List AddCall} {db end' : PacketDb}, Whole db → Below db →
    runAdds T db calls = some end' →
      ((∀ pre post d, calls = pre ++ post → runAdds T db pre = some d → WholePackets d) ↔
        ∀ pre c post d, calls = pre ++ c :: post → runAdds T db pre = some d → CutsNone T d c)
  | [], db, end', hw, hb, _ => by
    constructor
    · intro _ pre c post d hcalls
      simp at hcalls
    · intro _ pre post d hcalls hd
      obtain ⟨rfl, rfl⟩ := List.nil_eq_append_iff.1 hcalls
      cases hd
      exact (wholePackets_iff hb).2 hw
  | c :: cs, db, end', hw, hb, h => by
    obtain ⟨⟨db', ok⟩, hadd, hrun⟩ := Option.bind_eq_some_iff.1 h
    have hb' : Below db' := hb.addBytes hadd
    have hrun' : ∀ pre, runAdds T db (c :: pre) = runAdds T db' pre := fun pre => by
      rw [runAdds, hadd, Option.bind_some]
    constructor
    · intro hall
      have hw' : Whole db' := (wholePackets_iff hb').1 (hall [c] cs db' rfl (by rw [hrun', runAdds]))
      have ih := (whole_runAdds_iff hw' hb' hrun).1 fun pre post d hcs hd =>
        hall (c :: pre) post d (by rw [hcs, List.cons_append]) (by rw [hrun']; exact hd)
      intro pre x post d hcalls hd
      cases pre with
      | nil =>
        obtain ⟨rfl, rfl⟩ := List.cons.inj hcalls
        cases hd
        exact (whole_addBytes_iff hw hadd).1 hw'
      | cons y pre =>
        obtain ⟨rfl, hcs⟩ := List.cons.inj hcalls
        exact ih pre x post d hcs (by rw [← hrun']; exact hd)
    · intro hall
      have hw' : Whole db' := (whole_addBytes_iff hw hadd).2 (hall [] c cs db rfl rfl)
      have ih := (whole_runAdds_iff hw' hb' hrun).2 fun pre x post d hcs hd =>
        hall (c :: pre) x post d (by rw [hcs, List.cons_append]) (by rw [hrun']; exact hd)
      intro pre post d hcalls hd
      cases pre with
      | nil =>
        cases hd
        exact (wholePackets_iff hb).2 hw
      | cons y pre =>
        obtain ⟨rfl, hcs⟩ := List.cons.inj hcalls
        exact ih pre post d hcs (by rw [← hrun']; exact hd)

end Calls

theorem stored_empty (a : Nat) : stored IntervalMap.empty a = none := by
  unfold stored
  rw [IntervalMap.find_empty]
  rfl

theorem whole_empty : Whole IntervalMap.empty where
  covers a x h := by
    rw [stored_empty] at h
    cases h
  whole a x h := by
    rw [stored_empty] at h
    cases h

theorem cutsNone_empty (c : AddCall) : CutsNone T IntervalMap.empty c := fun _ _ _ a x h => by
  rw [stored_empty] at h
  cases h

theorem below_empty : Below IntervalMap.empty := fun a x h => by
  rw [stored_empty] at h
  cases h

theorem WholePackets.pc_eq {db : PacketDb} (h : WholePackets db) {a b : Nat} {i : InsnInfo} (ha : a < 2 ^ 64)
    (hi : lookup db a = some i) (hb : i.pc ≤ b) (hlt : b < i.pc + i.pkt.encodPktSizeInBytes) :
    (lookup db b).map InsnInfo.pc = some i.pc := by
  obtain ⟨-, -, hall⟩ := h a i ha hi
  obtain ⟨j, hj, hpc, -⟩ := hall b hb hlt
  rw [hj, Option.map_some, hpc]

end Whole

/-- **In every run of `AddBytes` calls, all states hold whole packets exactly when no call cuts a packet stored before
it.** -/
theorem runAdds_whole_iff (T : DecodeTables) (calls : List AddCall) (db : PacketDb)
    (h : runAdds T IntervalMap.empty calls = some db) :
    (∀ pre post d, calls = pre ++ post → runAdds T IntervalMap.empty pre = some d → WholePackets d) ↔
      ∀ pre c post d, calls = pre ++ c :: post → runAdds T IntervalMap.empty pre = some d → CutsNone T d c :=
  whole_runAdds_iff whole_empty below_empty h

/-- `{ nop; nop }` at address 0. -/
def addNops : AddCall := ⟨[0, 0x40, 0, 0x7f, 0, 0xc0, 0, 0x7f], 0, by decide, by decide, by decide⟩

/-- `{ nop }` at address 4. -/
def addNop : AddCall := ⟨[0, 0xc0, 0, 0x7f], 4, by decide, by decide, by decide⟩

theorem not_whole_addNop {db : PacketDb} (h : runAdds nopTables IntervalMap.empty [addNops, addNop] = some db) :
    ¬ WholePackets db := by
  cases h
  exact fun hw => absurd (hw.pc_eq (a := 0) (b := 4) (by decide) rfl (by decide +kernel) (by decide +kernel))
    (by decide +kernel)

/-- A packet that is added again stays whole; a `nop` added in its second word cuts it. -/
theorem runAdds_whole_iff_nops :
    (∃ db, runAdds nopTables IntervalMap.empty [addNops, addNops] = some db ∧
      ∀ pre post d, [addNops, addNops] = pre ++ post → runAdds nopTables IntervalMap.empty pre = some d →
        WholePackets d) ∧
    ∃ db, runAdds nopTables IntervalMap.empty [addNops, addNop] = some db ∧
      ¬ ∀ pre c post d, [addNops, addNop] = pre ++ c :: post → runAdds nopTables IntervalMap.empty pre = some d →
        CutsNone nopTables d c := by
  refine ⟨⟨_, rfl, (runAdds_whole_iff nopTables [addNops, addNops] _ rfl).2 fun pre c post d hcalls hd => ?_⟩,
    _, rfl, fun hcuts => ?_⟩
  · match pre, hcalls with
    | [], hcalls =>
      cases hd
      exact cutsNone_empty c
    | [_], hcalls =>
      obtain ⟨rfl, htail⟩ := List.cons.inj hcalls
      obtain ⟨rfl, -⟩ := List.cons.inj htail
      obtain ⟨⟨db', ok⟩, hadd, hd⟩ := Option.bind_eq_some_iff.1 hd
      cases hd
      exact .again ((whole_addBytes_iff whole_empty hadd).2 (cutsNone_empty _)) hadd
    | _ :: _ :: _, hcalls => simp at hcalls
  · exact not_whole_addNop rfl ((runAdds_whole_iff nopTables [addNops, addNop] _ rfl).2 hcuts
      [addNops, addNop] [] _ rfl rfl)

/-- `{ nop; nop }` at address 0, and then `{ nop }` at address 4: the first packet is still looked up at 0. -/
theorem packet_cut : ∃ db, runAdds nopTables IntervalMap.empty [addNops, addNop] = some db ∧
    (lookup db 0).map (fun i => (i.pc, i.pkt.encodPktSizeInBytes)) = some (0, 8) ∧
    (lookup db 4).map (fun i => (i.pc, i.pkt.encodPktSizeInBytes)) = some (4, 4) ∧ ¬ WholePackets db :=
  ⟨_, rfl, by decide +kernel, by decide +kernel, not_whole_addNop rfl⟩

end Hex
