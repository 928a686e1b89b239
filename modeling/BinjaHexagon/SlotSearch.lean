import BinjaHexagon.SlotNumber
/-!
# SlotSearch — what the slot assignment comes to

The searches of a packet all end at one of the slots 0 to 3 exactly when the instructions can share out the slots in
the order they stand in.  A packet that closes a hardware loop never can.
-/
namespace Hex

/-- `get_insn_a`. -/
def insnA (w : BitVec 32) : BitVec 32 := (w.extractLsb' 0 13).setWidth 32

/-- `get_insn_b`. -/
def insnB (w : BitVec 32) : BitVec 32 := (w.extractLsb' 16 13).setWidth 32

/-- The `iclass` of every instruction `decode_insns` makes of a word; each half of a duplex is decoded by itself. -/
def wordIclasses (w : BitVec 32) : List Nat :=
  if parseBits w != 0 then [iclassBits w] else [iclassBits (insnB w), iclassBits (insnA w)]

/-- The classes of a packet's instructions; an endloop has the class of the zeroed packet. -/
def packetIclasses (T : DecodeTables) (words : List (BitVec 32)) : List Nat :=
  let g := gather T false 0 (words.take (maxWords words.length))
  (words.take g.read).flatMap wordIclasses ++ (endloopInsn words g.read).toList.map fun _ => 0

/-- What `decode_packet` passes to `decode_set_slot_number`. -/
def slotInput (T : DecodeTables) (words : List (BitVec 32)) : Option (List SlotInsn) :=
  (passInput T words).map fun l => List.zipWith SlotInsn.mk l (packetIclasses T words)

section Input

variable {T : DecodeTables}

theorem length_wordIclasses {ext : Bool} {n : Nat} {w : BitVec 32} {writes : List Nat} {is : List Insn}
    (h : T.decodeInsns ext n w = (writes, some is)) : (wordIclasses w).length = is.length := by
  unfold wordIclasses
  unfold DecodeTables.decodeInsns at h
  split at h
  · rename_i hw
    rw [if_pos hw]
    split at h
    · cases h
    · split at h
      · cases h
      · cases h
        rfl
  · rename_i hw
    rw [if_neg hw]
    split at h
    · cases h
    · cases h
    · cases h
    · cases h
    · split at h
      · cases h
      · cases h
        rfl

theorem length_iclasses : ∀ (words : List (BitVec 32)) (ext : Bool) (n : Nat),
    (gather T ext n words).stop = .ended →
      ((words.take (gather T ext n words).read).flatMap wordIclasses).length = (gather T ext n words).insn.length
  | [], _, _, h => by cases h
  | w :: ws, ext, n, h => by
    rcases hd : T.decodeInsns ext n w with ⟨writes, _ | is⟩
    · rw [gather_failed hd] at h
      cases h
    · have hlen := length_wordIclasses hd
      have hcons : ∃ i l, is = i :: l := by
        rcases decodeInsns_some hd with ⟨i, rfl, -⟩ | ⟨-, b, a, rfl, -⟩
        exacts [⟨i, [], rfl⟩, ⟨b, [a], rfl⟩]
      obtain ⟨i, l, rfl⟩ := hcons
      cases hw : isPacketEnd w with
      | true =>
        rw [gather_end hd hw, List.take_succ_cons, List.take_zero, List.flatMap_singleton, hlen]
      | false =>
        rw [gather_next hd hw] at h ⊢
        have ih := length_iclasses ws _ _ h
        rw [List.take_succ_cons, List.flatMap_cons, List.length_append, List.length_append, ih, hlen]

end Input

variable {S : SlotTables} {l : List SlotInsn}

/-- What the pass should come to: every search ends at a permitted slot, the slots never rise along the packet, and
after the fix-ups every instruction still has one of the four. -/
def SlotsMeet (S : SlotTables) (l : List SlotInsn) : Prop :=
  ∃ slots out, assignSlots S l = some slots ∧ List.Forall₂ (fun x s => x.permits S s = true) l slots ∧
    slots.Pairwise (fun a b => b ≤ a) ∧ decodeSetSlotNumber S l = some out ∧ out.map Prod.fst = l ∧
    ∀ q ∈ out, q.2 < 4

theorem SlotsMeet.isSome (h : SlotsMeet S l) : (assignSlots S l).isSome = true := by
  obtain ⟨slots, -, hslots, -⟩ := h
  rw [hslots, Option.isSome_some]

/-- The slots can be shared out in packet order: each instruction a permitted slot, below that of the instruction
before; slot 0 any number of times. -/
def CanShare (S : SlotTables) (l : List SlotInsn) : Prop :=
  ∃ slots, List.Forall₂ (fun x s => x.permits S s = true) l slots ∧ slots.IsChain fun a b => b < a ∨ b = 0

theorem map_fst_fixSlots (p : SlotInsn → Bool) : ∀ l : List (SlotInsn × Nat),
    (fixSlots p l).2.map Prod.fst = l.map Prod.fst
  | [] => rfl
  | (x, s) :: l => by
    have ih := map_fst_fixSlots p l
    unfold fixSlots
    by_cases hx : p x = true
    · simp [hx, ih]
    · simp [hx, ih]

theorem fixSlots_lt (p : SlotInsn → Bool) : ∀ {l : List (SlotInsn × Nat)}, (∀ q ∈ l, q.2 < 4) →
    ∀ q ∈ (fixSlots p l).2, q.2 < 4
  | [], _, _, hq => absurd hq List.not_mem_nil
  | (x, s) :: l, h, q, hq => by
    obtain ⟨hs, hl⟩ := List.forall_mem_cons.1 h
    have ih := fixSlots_lt p hl
    unfold fixSlots at hq
    by_cases hx : p x = true
    · rw [if_pos hx] at hq
      rcases List.mem_cons.1 hq with rfl | hq
      · cases (fixSlots p l).1
        · exact Nat.zero_lt_succ 3
        · exact Nat.one_lt_succ_succ 2
      · exact ih q hq
    · rw [if_neg hx] at hq
      rcases List.mem_cons.1 hq with rfl | hq
      · exact hs
      · exact ih q hq

theorem map_fst_alignSlots (l : List (SlotInsn × Nat)) : (alignSlots l).map Prod.fst = l.map Prod.fst := by
  unfold alignSlots
  split
  · rfl
  · split
    · rename_i i _
      apply List.ext_getElem?
      intro k
      rw [List.getElem?_map, List.getElem?_map, List.getElem?_modify]
      cases l[k]? with
      | none => rfl
      | some q =>
        simp only [Option.map_some]
        split <;> rfl
    · rfl

theorem alignSlots_lt {l : List (SlotInsn × Nat)} (h : ∀ q ∈ l, q.2 < 4) : ∀ q ∈ alignSlots l, q.2 < 4 := by
  unfold alignSlots
  split
  · exact h
  · split
    · rename_i i _
      intro q hq
      obtain ⟨k, hk⟩ := List.mem_iff_getElem?.1 hq
      rw [List.getElem?_modify] at hk
      obtain ⟨r, hr, rfl⟩ := Option.map_eq_some_iff.1 hk
      split
      · exact Nat.zero_lt_succ 3
      · exact h r (List.mem_of_getElem? hr)
    · exact h

/-- The fix-ups change slots only, and keep them among the four. -/
theorem decodeSetSlotNumber_some {slots : List Nat} (h : assignSlots S l = some slots) :
    ∃ out, decodeSetSlotNumber S l = some out ∧ out.map Prod.fst = l ∧ ∀ q ∈ out, q.2 < 4 := by
  obtain ⟨htakes, hfalls⟩ := Descent.assign_some h
  have hlen : l.length = slots.length := by simpa using htakes.length_eq
  have hfst : (l.zip slots).map Prod.fst = l := List.map_fst_zip (Nat.le_of_eq hlen)
  have hzip : ∀ q ∈ l.zip slots, q.2 < 4 := fun q hq => by
    have := hfalls.sorted.2 q.2 (List.of_mem_zip hq).2
    omega
  refine ⟨_, by rw [decodeSetSlotNumber, h, Option.map_some], ?_, ?_⟩
  · rw [map_fst_alignSlots, map_fst_fixSlots, map_fst_fixSlots, hfst]
  · exact alignSlots_lt (fixSlots_lt _ (fixSlots_lt _ hzip))

theorem slotsMeet_iff : SlotsMeet S l ↔ CanShare S l := by
  constructor
  · rintro ⟨slots, out, hslots, hpermits, -⟩
    obtain ⟨-, hfalls⟩ := Descent.assign_some hslots
    exact ⟨slots, hpermits, (Descent.falls_iff.1 hfalls).2⟩
  · rintro ⟨c, hpermits, hchain⟩
    have htop : ∀ s ∈ c.head?, s ≤ 3 := by
      intro s hs
      cases hpermits with
      | nil => cases hs
      | cons hx _ =>
        cases hs
        exact Nat.le_of_lt_succ (SlotInsn.lt_of_permits S hx)
    obtain ⟨slots, hslots⟩ := Descent.exists_assign (List.forall₂_map_left_iff.2 hpermits)
      (Descent.falls_iff.2 ⟨htop, hchain⟩)
    obtain ⟨out, hout⟩ := decodeSetSlotNumber_some hslots
    obtain ⟨htakes, hfalls⟩ := Descent.assign_some hslots
    exact ⟨slots, out, hslots, List.forall₂_map_left_iff.1 htakes, hfalls.sorted.1, hout⟩

/-- An instruction that only slot 2 takes, behind two others, finds no slot. -/
theorem not_canShare {front : List SlotInsn} {e : SlotInsn} (hfront : 2 ≤ front.length) (he : e.validSlots S = slots2) :
    ¬ CanShare S (front ++ [e]) := by
  rintro ⟨slots, hpermits, hchain⟩
  obtain ⟨m, hm⟩ : ∃ m, front.length = m + 2 := ⟨front.length - 2, by omega⟩
  have hlen : slots.length = m + 3 := by rw [← hpermits.length_eq, List.length_append, hm, List.length_singleton]
  have hat : ∀ k (hk : k < slots.length) (hk' : k < (front ++ [e]).length),
      (front ++ [e])[k].permits S slots[k] = true :=
    fun k hk hk' => List.Forall₂.get hpermits hk' hk
  have hlast : slots[m + 2] = 2 := by
    have h := hat (m + 2) (by omega) (by simp [hm])
    rw [List.getElem_append_right (by omega)] at h
    simp only [hm, Nat.sub_self, List.getElem_singleton, SlotInsn.permits, he] at h
    have hlt := BitVec.lt_of_getLsbD h
    generalize slots[m + 2] = n at h hlt ⊢
    revert h
    revert hlt n
    decide
  have hlen' : (front ++ [e]).length = m + 3 := by rw [List.length_append, hm, List.length_singleton]
  have htop : slots[m] < 4 := SlotInsn.lt_of_permits S (hat m (by omega) (by omega))
  have hmid : slots[m + 1] < 4 := SlotInsn.lt_of_permits S (hat (m + 1) (by omega) (by omega))
  have hfst := List.isChain_iff_getElem.1 hchain m (by omega)
  have hsnd : slots[m + 2] < slots[m + 1] ∨ slots[m + 2] = 0 := List.isChain_iff_getElem.1 hchain (m + 1) (by omega)
  omega

theorem map_insn_zipWith : ∀ {l : List Insn} {c : List Nat}, l.length = c.length →
    (List.zipWith SlotInsn.mk l c).map SlotInsn.insn = l
  | [], [], _ => rfl
  | _ :: _, _ :: _, h => by
    rw [List.zipWith_cons_cons, List.map_cons, map_insn_zipWith (Nat.succ.inj h)]

section Endloop

variable {T : DecodeTables} {words : List (BitVec 32)}

theorem length_packetIclasses {l' : List Insn} (h : passInput T words = some l') :
    l'.length = (packetIclasses T words).length := by
  obtain ⟨pre, last, hp, hl⟩ := passInput_some h
  have hread : (words.take (maxWords words.length)).take
      (gather T false 0 (words.take (maxWords words.length))).read =
      words.take (gather T false 0 (words.take (maxWords words.length))).read := by
    have hle := gather_read_le (T := T) (words.take (maxWords words.length)) false 0
    rw [List.length_take] at hle
    rw [List.take_take, Nat.min_eq_left (by omega)]
  have hcount := length_iclasses (T := T) (words.take (maxWords words.length)) false 0 hp.collected.stop
  rw [hread] at hcount
  obtain ⟨hkind, -⟩ := @applyExtenders_followed true _ _ _ _ hl (.inl rfl)
  rw [← hkind.length_eq, Gathered.encoded, packetIclasses, List.length_append, List.length_append, List.length_map,
    hcount]

/-- The input is the packet's list after the extenders, each instruction with its class. -/
theorem slotInput_some (h : slotInput T words = some l) : passInput T words = some (l.map SlotInsn.insn) := by
  obtain ⟨l', hl', rfl⟩ := Option.map_eq_some_iff.1 h
  rw [hl', map_insn_zipWith (length_packetIclasses hl')]

/-- The rows `decode_add_endloop_insn` can add. -/
theorem endloopInsn_opcode {read : Nat} {e : Insn} (h : endloopInsn words read = some e) :
    e.opcode = Opcodes.j2Endloop0 ∨ e.opcode = Opcodes.j2Endloop1 ∨ e.opcode = Opcodes.j2Endloop01 := by
  unfold endloopInsn at h
  simp only at h
  split at h
  · split at h <;> cases h
    exact .inl rfl
  · split at h
    · split at h
      · cases h
        exact .inr (.inr rfl)
      · split at h
        · cases h
          exact .inr (.inl rfl)
        · split at h <;> cases h
          exact .inl rfl
    · cases h

/-- An indirect change of flow that touches no memory takes slot 2 only. -/
theorem validSlots_endloop {x : SlotInsn} (hS : S.attribs x.insn.opcode.tag = [.cof])
    (hext : x.insn.attrib .extension = false) (hind : x.insn.attrib .indirect = true) : x.validSlots S = slots2 := by
  unfold SlotInsn.validSlots SlotInsn.findIclassSlots SlotInsn.has
  rw [hext, hind, hS]
  rfl

/-- **No packet that closes a hardware loop finds a slot for its endloop.** -/
theorem endloop_unplaced (hS : ∀ t ∈ [Tag.j2Endloop0, .j2Endloop1, .j2Endloop01], S.attribs t = [.cof])
    (h : slotInput T words = some l) (hend : ∃ x ∈ l, x.insn.endsLoop = true) : ¬ SlotsMeet S l := by
  obtain ⟨pre, last, hp, hl⟩ := passInput_some (slotInput_some h)
  obtain ⟨hkind, -⟩ := @applyExtenders_followed true _ _ _ _ hl (.inl rfl)
  obtain ⟨a, b, hab, ha, hb⟩ := exists_of_forall₂_append hkind
  obtain ⟨front, back, rfl, rfl, rfl⟩ := List.map_eq_append_iff.1 hab
  have hfront : ∀ x ∈ front, x.insn.endsLoop = false := fun x hx => by
    obtain ⟨i, hi, hsame⟩ := exists_of_mem_forall₂ ha (List.mem_map_of_mem hx)
    rw [hsame.endsLoop, hp.collected.noLoop i hi]
  rw [slotsMeet_iff]
  cases hloop : endloopInsn words (gather T false 0 (words.take (maxWords words.length))).read with
  | none =>
    rw [hloop, Option.toList_none, List.forall₂_nil_left_iff, List.map_eq_nil_iff] at hb
    obtain ⟨x, hx, hloops⟩ := hend
    rw [hb, List.append_nil] at hx
    rw [hfront x hx] at hloops
    cases hloops
  | some e =>
    rw [hloop, Option.toList_some] at hb
    obtain ⟨y, rfl⟩ : ∃ y, back = [y] := List.length_eq_one_iff.1 (by simpa using hb.length_eq.symm)
    have hop : y.insn.opcode = e.opcode := by
      cases hb with
      | cons hsame _ => exact hsame.1.symm
    have hlen := hp.collected.length
    have hread := (endloopInsn_some hloop).2.2.2.2
    have hcount := ha.length_eq
    rw [List.length_map] at hcount
    apply not_canShare (by omega)
    have htag : y.insn.opcode.tag ∈ [Tag.j2Endloop0, .j2Endloop1, .j2Endloop01] ∧
        y.insn.attrib .extension = false ∧ y.insn.attrib .indirect = true := by
      unfold Insn.attrib
      rw [hop]
      rcases endloopInsn_opcode hloop with h | h | h
      · rw [h]; decide
      · rw [h]; decide
      · rw [h]; decide
    exact validSlots_endloop (hS _ htag.1) htag.2.1 htag.2.2

end Endloop

/-- **The slot assignment of a packet ends at the slots 0 to 3 exactly when its instructions can share them out.** -/
theorem slot_assignment_iff (S : SlotTables) (T : DecodeTables) (words : List (BitVec 32)) :
    (∀ l, slotInput T words = some l → SlotsMeet S l) ↔ ∀ l, slotInput T words = some l → CanShare S l :=
  forall₂_congr fun _ _ => slotsMeet_iff

/-- The attributes of the three endloops, and of opcodes that have none of these. -/
def endloopSlots : SlotTables where
  attribs
    | .j2Endloop0 | .j2Endloop1 | .j2Endloop01 => [.cof]
    | _ => []
  y2Isync := .other 26
  j4Jumpseti := .other 27
  j4Jumpsetr := .other 28

theorem m2DpmpyssAccS0_fits :
    ∀ d ∈ Opcodes.m2DpmpyssAccS0.regs.zipIdx, [0, 0, 0].getD d.2 0 < d.1.limit := by
  decide

/-- `r1:0+=mpy(r0,r0)` -/
def mpyTables : DecodeTables :=
  wordTables [(0xe7000000, Opcodes.m2DpmpyssAccS0.insn [0, 0, 0] [] m2DpmpyssAccS0_fits)]

/-- `{ nop; nop }:endloop0`, and three multiplications. -/
theorem slots_run_out :
    ¬ (∀ l, slotInput nopTables [0x7f008000, 0x7f00c000] = some l → SlotsMeet endloopSlots l) ∧
    ¬ (∀ l, slotInput mpyTables [0xe7004000, 0xe7004000, 0xe700c000] = some l → SlotsMeet endloopSlots l) := by
  constructor
  · intro h
    exact absurd (h _ rfl).isSome (by decide +kernel)
  · intro h
    exact absurd (h _ rfl).isSome (by decide +kernel)

end Hex
