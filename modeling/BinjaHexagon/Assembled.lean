import BinjaHexagon.DecodeInsns
/-!
# Assembled — the words a decoder accepts

What words are assembled from, without a tree or a mask: an instruction from what its letters stand for, a duplex from
two halves.  The decoder reads back the words that can be assembled, and no others.
-/
namespace Hex

open Patterns (Matches)

/-- The instruction that its letters stand for. -/
def IsetRow.instruction (r : IsetRow) (letter : Opcode → ImmLetter) (ext : Bool) (c : Codes r.enc) : Insn where
  opcode := r.opcode
  regno := (List.range 5).map fun k => (r.registers c).getD k 0
  immed := (List.range 2).map (r.immediate (if ext then whichExtended letter r.opcode else none) c)
  part1 := false
  extensionValid := ext
  regno_lt k d hd := by
    rw [List.getD_eq_getElem?_getD, List.getElem?_map]
    by_cases hk : k < 5
    · rw [List.getElem?_range hk, Option.map_some, Option.getD_some]
      exact IsetRow.registers_lt hd
    · rw [List.getElem?_eq_none (by simpa using hk)]
      show 0 < d.limit
      unfold OperandDecl.limit
      split <;> decide

/-- **`decode_op` reads the letters of a word.** -/
theorem IsetRow.decodeOp_eq (r : IsetRow) (letter : Opcode → ImmLetter) (ext : Bool) (w : BitVec 32) :
    r.decodeOp letter ext w = r.instruction letter ext (r.enc.codes w) := by
  have hreg : (r.fields (if ext then whichExtended letter r.opcode else none) w).regno =
      fun k => (r.registers (r.enc.codes w)).getD k 0 := funext fun k => r.fields_regno _ w k
  have himm : (r.fields (if ext then whichExtended letter r.opcode else none) w).immed =
      r.immediate (if ext then whichExtended letter r.opcode else none) (r.enc.codes w) := funext fun k =>
        r.fields_immed _ w k
  simp only [decodeOp, instruction, hreg, himm]

theorem IsetRow.reg_instruction (r : IsetRow) (letter : Opcode → ImmLetter) (ext : Bool) (c : Codes r.enc)
    {m : RegMatch} {k : Nat}
    (hk : (syntaxRegs r.syn)[k]? = some m) : (r.instruction letter ext c).reg k = m.register (c.code m.letter) := by
  obtain ⟨hlt, -⟩ := List.getElem?_eq_some_iff.1 hk
  have h5 : k < 5 := hlt.trans_le r.places
  show ((List.range 5).map fun k => (r.registers c).getD k 0).getD k 0 = _
  rw [List.getD_eq_getElem?_getD, List.getElem?_map, List.getElem?_range h5, Option.map_some, Option.getD_some,
    IsetRow.registers,
    List.getD_eq_getElem?_getD, List.getElem?_append_left (by rw [List.length_map]; exact hlt), List.getElem?_map, hk]
  rfl

theorem IsetRow.imm_instruction (r : IsetRow) (letter : Opcode → ImmLetter) (ext : Bool) (c : Codes r.enc)
    {m : ImmMatch} (hm : m ∈ syntaxImms r.syn) :
    (r.instruction letter ext c).imm m.immno =
      m.value ((if ext then whichExtended letter r.opcode else none) == some m.immno) (c.code m.encLetter) := by
  have hlt : m.immno < 2 := by
    unfold ImmMatch.immno
    split <;> decide
  show ((List.range 2).map _).getD m.immno 0 = _
  rw [List.getD_eq_getElem?_getD, List.getElem?_map, List.getElem?_range hlt, Option.map_some, Option.getD_some,
    r.immediate_of_mem _ c hm]

/-- The two halves of a duplex under its grouping. -/
def SubinsnGrouping.word (g : SubinsnGrouping) (a b : BitVec 32) : BitVec 32 :=
  g.enc.assemble fun x => if x = 'A' then a.toNat else if x = 'B' then b.toNat else 0

/-- A word and the instructions it is assembled from; `ext` says that an extender stands before it. -/
inductive Assembled (S : Iset) (ext : Bool) : BitVec 32 → List Insn → Prop
  | word {r : IsetRow} (hr : r ∈ S.rows32) (c : Codes r.enc) (hp : c.code 'P' ≠ 0)
      (hext : ext = true → r.opcode.attrib .extendable = true) :
      Assembled S ext c.word [r.instruction S.immextLetter ext c]
  | duplex {g : SubinsnGrouping} (hg : g ∈ packed32) {classA classB : SubinsnClass}
      (hc : g.classes = some (classA, classB))
      {a b : IsetRow} (ha : a ∈ (S.subinsns classA).tags) (hb : b ∈ (S.subinsns classB).tags) (ca : Codes a.enc)
      (cb : Codes b.enc) (hext : ext = true → b.opcode.attrib .extendable = true) :
      Assembled S ext (g.word ca.word cb.word) [b.instruction S.immextLetter ext cb,
        a.instruction S.immextLetter false ca]

section Duplex

theorem packed32_layout : ∀ g ∈ packed32, g.enc.length = 32 ∧ runs 'A' 0 g.enc = [(0, 13)] ∧
    runs 'B' 0 g.enc = [(16, 13)] ∧
    runs 'E' 0 g.enc = [(14, 2)] ∧ g.enc.all (fun x => x == 'A' || x == 'B' || x == 'E' || isOpcodeBit x) = true := by
  decide +kernel

variable {g : SubinsnGrouping}

theorem toNat_getInsnA (hg : g ∈ packed32) (w : BitVec 32) : (getInsnA w).toNat = g.enc.code w 'A' := by
  rw [code_of_run (packed32_layout g hg).2.1, getInsnA, BitVec.toNat_setWidth]
  exact Nat.mod_eq_of_lt ((w.extractLsb' 0 13).isLt.trans (by decide))

theorem toNat_getInsnB (hg : g ∈ packed32) (w : BitVec 32) : (getInsnB w).toNat = g.enc.code w 'B' := by
  rw [code_of_run (packed32_layout g hg).2.2.1, getInsnB, BitVec.toNat_setWidth]
  exact Nat.mod_eq_of_lt ((w.extractLsb' 16 13).isLt.trans (by decide))

theorem toNat_parseBits (hg : g ∈ packed32) (w : BitVec 32) : (parseBits w).toNat = g.enc.code w 'E' :=
  (code_of_run (packed32_layout g hg).2.2.2.1 w).symm

theorem count_of_run {e : Enc} {x : Char} {start len : Nat} (h : runs x 0 e = [(start, len)]) : e.count x = len := by
  have hbits := congrArg List.length (flatMap_runs (x := x) (w := fun _ => false) e 0)
  rw [h, List.flatMap_singleton, List.length_map, List.length_range, length_spelled] at hbits
  exact hbits.symm

theorem packed32_fixed : ∀ g ∈ packed32, ∀ i < 32, g.enc.pattern i = none ∨ i = 31 ∨ i = 30 ∨ i = 29 ∨ i = 13 := by
  decide +kernel

theorem packed32_bits : packed32.map (fun g => (g.enc.pattern 31, g.enc.pattern 30, g.enc.pattern 29,
    g.enc.pattern 13)) =
    [false, true].flatMap fun b31 => [false, true].flatMap fun b30 => [false, true].flatMap fun b29 =>
      [false, true].map fun b13 => (some b31, some b30, some b29, some b13) := by decide +kernel

theorem packed32_total (b31 b30 b29 b13 : Bool) : ∃ g ∈ packed32, g.enc.pattern 31 = some b31 ∧
    g.enc.pattern 30 = some b30 ∧ g.enc.pattern 29 = some b29 ∧ g.enc.pattern 13 = some b13 := by
  have hmem : (some b31, some b30, some b29, some b13) ∈
      packed32.map fun g => (g.enc.pattern 31, g.enc.pattern 30, g.enc.pattern 29, g.enc.pattern 13) := by
    rw [packed32_bits]
    cases b31 <;> cases b30 <;> cases b29 <;> cases b13 <;> decide
  obtain ⟨g, hg, hbits⟩ := List.mem_map.1 hmem
  simp only [Prod.mk.injEq] at hbits
  exact ⟨g, hg, hbits⟩

/-- **Every word has a grouping**, and the tree finds it unchecked. -/
theorem matches_of_walk {w : BitVec 32} (h : groupings.tree.walk w.getLsbD = some g) :
    Matches g.enc.pattern w.getLsbD := by
  obtain ⟨g', hg', h31, h30, h29, h13⟩ :=
    packed32_total (w.getLsbD 31) (w.getLsbD 30) (w.getLsbD 29) (w.getLsbD 13)
  have hmatch : Matches g'.enc.pattern w.getLsbD := fun i b hb => by
    have hi : i < 32 := by
      by_contra hge
      rw [Enc.pattern, List.getElem?_eq_none (by rw [(packed32_layout g' hg').1]; omega)] at hb
      cases hb
    rcases packed32_fixed g' hg' i hi with hnone | rfl | rfl | rfl | rfl
    · rw [hnone] at hb
      cases hb
    · exact Option.some.inj (h31.symm.trans hb)
    · exact Option.some.inj (h30.symm.trans hb)
    · exact Option.some.inj (h29.symm.trans hb)
    · exact Option.some.inj (h13.symm.trans hb)
  have hwalk := groupings.decides.complete hg' hmatch
  rw [h] at hwalk
  exact Option.some.inj hwalk ▸ hmatch

/-- **The halves of a duplex are cut out again.** -/
theorem getInsn_word (hg : g ∈ packed32) {a b : BitVec 32} (ha : a.toNat < 2 ^ 13) (hb : b.toNat < 2 ^ 13) :
    getInsnA (g.word a b) = a ∧ getInsnB (g.word a b) = b ∧ parseBits (g.word a b) = 0 := by
  obtain ⟨hlen, hA, hB, hE, -⟩ := packed32_layout g hg
  refine ⟨BitVec.eq_of_toNat_eq ?_, BitVec.eq_of_toNat_eq ?_, BitVec.eq_of_toNat_eq ?_⟩
  · rw [toNat_getInsnA hg, SubinsnGrouping.word, code_assemble hlen.le _ (by decide), count_of_run hA]
    exact Nat.mod_eq_of_lt ha
  · rw [toNat_getInsnB hg, SubinsnGrouping.word, code_assemble hlen.le _ (by decide), count_of_run hB]
    exact Nat.mod_eq_of_lt hb
  · rw [toNat_parseBits hg, SubinsnGrouping.word, code_assemble hlen.le _ (by decide)]
    rfl

/-- **A duplex is assembled from its halves.** -/
theorem word_getInsn (hg : g ∈ packed32) {w : BitVec 32} (hw : Matches g.enc.pattern w.getLsbD) (hp : parseBits w = 0) :
    g.word (getInsnA w) (getInsnB w) = w := by
  obtain ⟨hlen, -, -, -, hletters⟩ := packed32_layout g hg
  refine Eq.trans ?_ (assemble_code hlen hw)
  refine congrArg (Patterns.ofBits 32) (spell_congr fun x hx => ?_)
  by_cases hA : x = 'A'
  · rw [if_pos hA, hA, toNat_getInsnA hg]
  · rw [if_neg hA]
    by_cases hB : x = 'B'
    · rw [if_pos hB, hB, toNat_getInsnB hg]
    · rw [if_neg hB]
      by_cases hE : x = 'E'
      · rw [hE, ← toNat_parseBits hg, hp]
        rfl
      · have hnot : x ∉ g.enc := fun hmem => by
          have h := List.all_eq_true.1 hletters x hmem
          simp [hA, hB, hE, hx] at h
        have hlt := g.enc.code_lt w x
        rw [List.count_eq_zero_of_not_mem hnot] at hlt
        omega

end Duplex

theorem word_lt_of_padded {r : IsetRow} (h : ∃ e : Enc, e.length = 13 ∧ r.enc = e.padded) (c : Codes r.enc) :
    c.word.toNat < 2 ^ 13 := by
  obtain ⟨e, hlen, he⟩ := h
  refine Nat.lt_pow_two_of_testBit _ fun i hi => ?_
  by_cases h32 : i < 32
  · refine Codes.matches_word r.width.le c i false (Dectree.pattern_eq_some.2 ?_)
    rw [he, Enc.padded, List.getElem?_append_right (by omega), List.getElem?_replicate, if_pos (by omega)]
    rfl
  · exact BitVec.getLsbD_of_ge _ i (Nat.le_of_not_lt h32)

section Words

variable {S : Iset} {checks : MmvecChecks} {ext : Bool} {n : Nat} {w : BitVec 32} {l : List Insn} {ws : List Nat}

theorem toNat_parseBits_row {r : IsetRow} (h : r.enc.hasParseBits = true) (w : BitVec 32) :
    (parseBits w).toNat = (r.enc.codes w).code 'P' := by
  rw [r.enc.codes_code w (by decide), code_of_run (beq_iff_eq.1 h)]
  rfl

theorem root32_word {r : IsetRow} (hr : r ∈ S.rows32) (c : Codes r.enc) :
    S.root32 ext c.word = some (r.instruction S.immextLetter ext c) := by
  rw [Iset.root32, Iset.lookup32_of_matches hr (Codes.matches_word r.width.le c), Option.map_some, r.decodeOp_eq,
    Codes.codes_word r.width.le c]

theorem lookup_word {L : DectreeLeaves IsetRow.enc} {r : IsetRow} (hr : r ∈ L.tags) (c : Codes r.enc) (ext : Bool) :
    (L.lookup c.word).map (fun r' => r'.decodeOp S.immextLetter ext c.word) = some
        (r.instruction S.immextLetter ext c) := by
  rw [L.lookup_iff.2 ⟨hr, Codes.matches_word r.width.le c⟩, Option.map_some, r.decodeOp_eq,
    Codes.codes_word r.width.le c]

theorem decodeInsns_of_assembled (h : Assembled S ext w l) :
    (S.decodeTables checks).decodeInsns ext n w = ((List.range l.length).map (n + ·), some l) := by
  have hno {i : Insn} (hext : ext = true → i.attrib .extendable = true) : (ext && !i.attrib .extendable) = false := by
    cases ext with
    | false => rfl
    | true => exact congrArg not (hext rfl)
  cases h with
  | @word r hr c hp hext =>
    have hpb : parseBits c.word ≠ 0 := fun h0 => by
      have hP := toNat_parseBits_row (S.whole_of_mem hr).2 c.word
      rw [h0, Codes.codes_word r.width.le c] at hP
      exact hp hP.symm
    have hroot : (S.decodeTables checks).root32 ext c.word = some (r.instruction S.immextLetter ext c) :=
      root32_word hr c
    rw [DecodeTables.decodeInsns, if_pos (bne_iff_ne.2 hpb), hroot]
    simp [hno (i := r.instruction S.immextLetter ext c) hext]
  | @duplex g hg classA classB hc a b ha hb ca cb hext =>
    obtain ⟨hA, hB, hpb⟩ := getInsn_word hg (word_lt_of_padded (S.subinsns_half _ a ha).2 ca)
      (word_lt_of_padded (S.subinsns_half _ b hb).2 cb)
    have hwalk : groupings.tree.walk (g.word ca.word cb.word).getLsbD = some g :=
      groupings.decides.complete hg (matches_assemble (packed32_layout g hg).1.le _)
    have hroot : (S.decodeTables checks).rootEe ext (g.word ca.word cb.word) =
        some (some (b.instruction S.immextLetter ext cb), some (a.instruction S.immextLetter false ca)) := by
      show S.rootEe ext _ = _
      rw [Iset.rootEe, hwalk, Option.bind_some, hc, Option.map_some, hA, hB, lookup_word ha, lookup_word hb]
    rw [DecodeTables.decodeInsns, hpb, if_neg (by decide), hroot]
    simp [hno (i := b.instruction S.immextLetter ext cb) hext, List.range_succ_eq_map]

theorem extendable_of_not {i : Insn} (h : ¬(ext && !i.attrib .extendable) = true) (hext : ext = true) :
    i.attrib .extendable = true := by
  rw [hext, Bool.true_and] at h
  simpa using h

/-- What is decoded as one instruction matches its encoding. -/
theorem assembled_of_root32 {i : Insn} (hpb : parseBits w ≠ 0) (h : S.root32 ext w = some i)
    (hext : ¬(ext && !i.attrib .extendable) = true) : Assembled S ext w [i] := by
  obtain ⟨r, hr, rfl⟩ := Option.map_eq_some_iff.1 h
  obtain ⟨hmem, hmatch⟩ := Iset.matches_of_lookup32 hr
  have hp : (r.enc.codes w).code 'P' ≠ 0 := fun h0 => hpb <| BitVec.eq_of_toNat_eq <| by
    rw [toNat_parseBits_row (S.whole_of_mem hmem).2, h0]
    rfl
  have ha := Assembled.word hmem (r.enc.codes w) hp (extendable_of_not (i := r.decodeOp S.immextLetter ext w) hext)
  rwa [Codes.word_codes r.width hmatch, ← r.decodeOp_eq] at ha

/-- What is decoded as two is a duplex of halves that match theirs. -/
theorem assembled_of_rootEe {a b : Insn} (hpb : parseBits w = 0) (h : S.rootEe ext w = some (some b, some a))
    (hext : ¬(ext && !b.attrib .extendable) = true) : Assembled S ext w [b, a] := by
  obtain ⟨c, hc, hp⟩ := Option.map_eq_some_iff.1 h
  obtain ⟨g, hwalk, hclasses⟩ := Option.bind_eq_some_iff.1 hc
  obtain ⟨hb, ha⟩ := Prod.mk.inj hp
  obtain ⟨rb, hrb, rfl⟩ := Option.map_eq_some_iff.1 hb
  obtain ⟨ra, hra, rfl⟩ := Option.map_eq_some_iff.1 ha
  obtain ⟨hbmem, hbmatch⟩ := ((S.subinsns c.2).lookup_iff).1 hrb
  obtain ⟨hamem, hamatch⟩ := ((S.subinsns c.1).lookup_iff).1 hra
  have hg : g ∈ packed32 := groupings.decides.mem hwalk
  have hd := Assembled.duplex hg hclasses hamem hbmem (ra.enc.codes (getInsnA w)) (rb.enc.codes (getInsnB w))
    (extendable_of_not (i := rb.decodeOp S.immextLetter ext (getInsnB w)) hext)
  rwa [Codes.word_codes ra.width hamatch, Codes.word_codes rb.width hbmatch,
    word_getInsn hg (matches_of_walk hwalk) hpb, ← ra.decodeOp_eq, ← rb.decodeOp_eq] at hd

/-- **`decode_insns` accepts what can be assembled**, and reads it back. -/
theorem decodeInsns_iff : (S.decodeTables checks).decodeInsns ext n w = (ws, some l) ↔
    Assembled S ext w l ∧ ws = (List.range l.length).map (n + ·) := by
  constructor
  · intro h
    suffices ha : Assembled S ext w l by
      refine ⟨ha, ?_⟩
      rw [decodeInsns_of_assembled ha] at h
      exact (Prod.mk.inj h).1.symm
    unfold DecodeTables.decodeInsns at h
    split at h
    · rename_i hpb
      split at h
      · cases (Prod.mk.inj h).2
      · rename_i i hroot
        split at h
        · cases (Prod.mk.inj h).2
        · rename_i hext
          obtain rfl := Option.some.inj (Prod.mk.inj h).2
          exact assembled_of_root32 (bne_iff_ne.1 hpb) hroot hext
    · rename_i hpb
      split at h
      · cases (Prod.mk.inj h).2
      · cases (Prod.mk.inj h).2
      · cases (Prod.mk.inj h).2
      · cases (Prod.mk.inj h).2
      · rename_i b a hroot
        split at h
        · cases (Prod.mk.inj h).2
        · rename_i hext
          obtain rfl := Option.some.inj (Prod.mk.inj h).2
          exact assembled_of_rootEe (by simpa using hpb) hroot hext
  · rintro ⟨ha, rfl⟩
    exact decodeInsns_of_assembled ha

end Words

end Hex
