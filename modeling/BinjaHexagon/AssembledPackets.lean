import BinjaHexagon.Assembled
import BinjaHexagon.DecodeWords
/-!
# AssembledPackets — the packets a decoder accepts

`decode_packet` over the tables of an instruction set: it takes the words of a packet apart into the instructions they
are assembled from, and puts a constant together again that an extender and an instruction share.
-/
namespace Hex

open Patterns (Matches)

/-- The words of a packet and their instructions; `ext` says that the word before is an extender. -/
inductive AssembledWords (S : Iset) : Bool → List (BitVec 32) → List Insn → Prop
  | last {ext : Bool} {w : BitVec 32} {l : List Insn} (h : Assembled S ext w l) (hend : isPacketEnd w = true) :
      AssembledWords S ext [w] l
  | next {ext : Bool} {w : BitVec 32} {i : Insn} {l : List Insn} {ws : List (BitVec 32)} {l' : List Insn}
      (h : Assembled S ext w (i :: l)) (hend : isPacketEnd w = false) (hrest : AssembledWords S i.isExtender ws l') :
      AssembledWords S ext (w :: ws) (i :: l ++ l')

section Words

variable {S : Iset}

theorem Assembled.exists_cons {ext : Bool} {w : BitVec 32} {l : List Insn} (h : Assembled S ext w l) : ∃ i l',
    l = i :: l' := by
  cases h <;> exact ⟨_, _, rfl⟩

/-- The loop over the words takes an assembled packet apart. -/
theorem gather_of_assembled (checks : MmvecChecks) {ext : Bool} {ws : List (BitVec 32)} {l : List Insn}
    (h : AssembledWords S ext ws l) (n : Nat)
    (rest : List (BitVec 32)) : (gather (S.decodeTables checks) ext n (ws ++ rest)).stop = .ended ∧
      (gather (S.decodeTables checks) ext n (ws ++ rest)).insn = l ∧
      (gather (S.decodeTables checks) ext n (ws ++ rest)).read = ws.length := by
  induction h generalizing n with
  | last h hend =>
    obtain ⟨i, l, rfl⟩ := h.exists_cons
    rw [List.cons_append, gather_end (decodeInsns_of_assembled h) hend]
    exact ⟨rfl, rfl, rfl⟩
  | @next ext w i l ws l' h hend _ ih =>
    obtain ⟨hstop, hinsn, hread⟩ := ih (n + (l.length + 1))
    rw [List.cons_append, gather_next (decodeInsns_of_assembled h) hend]
    exact ⟨hstop, congrArg (i :: l ++ ·) hinsn, congrArg (· + 1) hread⟩

theorem assembled_of_gather {checks : MmvecChecks} : ∀ {words : List (BitVec 32)} {ext : Bool} {n : Nat},
    (gather (S.decodeTables checks) ext n words).stop = .ended →
      AssembledWords S ext (words.take (gather (S.decodeTables checks) ext n words).read)
        (gather (S.decodeTables checks) ext n words).insn
  | [], _, _, h => by cases h
  | w :: ws, ext, n, h => by
    rcases hd : (S.decodeTables checks).decodeInsns ext n w with ⟨writes, _ | l⟩
    · rw [gather_failed hd] at h
      cases h
    · have ha := (decodeInsns_iff.1 hd).1
      obtain ⟨i, l, rfl⟩ := ha.exists_cons
      cases hw : isPacketEnd w with
      | true =>
        rw [gather_end hd hw]
        exact .last ha hw
      | false =>
        rw [gather_next hd hw] at h ⊢
        exact .next ha hw (assembled_of_gather h)

end Words

theorem decodePacket_of_assembled {S : Iset} (checks : MmvecChecks) {words ws rest : List (BitVec 32)} {l : List Insn}
    {p : Packet}
    (hfront : words.take (maxWords words.length) = ws ++ rest) (ha : AssembledWords S false ws l)
    (hfinish : finish (S.decodeTables checks) ws.length (l ++ (endloopInsn words ws.length).toList) = .packet p) :
    (decodePacket (S.decodeTables checks) words).outcome = .packet p := by
  obtain ⟨hstop, hinsn, hread⟩ := gather_of_assembled checks ha 0 rest
  unfold decodePacket
  simp only [hfront, hstop, hinsn, hread]
  exact hfinish

/-- **`decode_packet` accepts the packets that can be assembled**: it is given a packet if and only if the words begin
with one, and the passes go on with the instructions it is assembled from. -/
theorem decodePacket_iff_assembled (S : Iset) (checks : MmvecChecks) (words : List (BitVec 32)) (p : Packet) :
    (decodePacket (S.decodeTables checks) words).outcome = .packet p ↔
      ∃ ws rest l, words.take (maxWords words.length) = ws ++ rest ∧ AssembledWords S false ws l ∧
        finish (S.decodeTables checks) ws.length (l ++ (endloopInsn words ws.length).toList) = .packet p := by
  constructor
  · intro h
    unfold decodePacket at h
    generalize words.take (maxWords words.length) = front at h ⊢
    cases hstop : (gather (S.decodeTables checks) false 0 front).stop with
    | failed => simp only [hstop, reduceCtorEq] at h
    | insufficient => simp only [hstop, reduceCtorEq] at h
    | ended =>
      simp only [hstop] at h
      have hread := gather_read_le (T := S.decodeTables checks) front false 0
      refine ⟨_, _, _, (List.take_append_drop _ front).symm, assembled_of_gather hstop, ?_⟩
      rw [List.length_take, Nat.min_eq_left hread]
      exact h
  · rintro ⟨ws, rest, l, hfront, ha, hfinish⟩
    exact decodePacket_of_assembled checks hfront ha hfinish

section Constants

variable {S : Iset}

/-- What an extender holds: the upper 26 bits of a constant. -/
theorem extender_imm {e : IsetRow} (he : .terminal e ∈ S.normal.tags) (htag : e.opcode.tag = .a4Ext) (ext : Bool)
    (ce : Codes e.enc) : (e.instruction S.immextLetter ext ce).imm 0 = BitVec.ofNat 32 (ce.code 'i') <<< 6 := by
  have hno : whichExtended S.immextLetter e.opcode = none := by
    have hext : (e.instruction S.immextLetter ext ce).isExtender = true := by
      rw [Insn.isExtender_eq]
      exact beq_iff_eq.2 htag
    exact if_neg (by rw [show e.opcode.attrib .extendable = false from Insn.extender_lacks hext (by decide)]; decide)
  have himms : syntaxImms "immext(#u26:6)".toList = [⟨'u', ['2', '6'], ['6']⟩] := by decide
  show e.immediate (if ext then whichExtended S.immextLetter e.opcode else none) ce 0 = _
  rw [hno, ite_self, IsetRow.immediate, S.extender e he htag, himms]
  rfl

theorem value_low {m : ImmMatch} (hm : m.letter.toLower ≠ 'n') (hbits : 6 ≤ m.bits) (code : Nat) :
    m.value true code &&& 63 = BitVec.ofNat 32 (code % 64) := by
  have h63 (i : Nat) : (63#32).getLsbD i = decide (i < 6) := by
    rw [BitVec.getLsbD_ofNat, show 63 = 2 ^ 6 - 1 from rfl, Nat.testBit_two_pow_sub_one]
    by_cases hi : i < 6 <;> simp [hi]
    omega
  refine BitVec.eq_of_getLsbD_eq fun i hi => ?_
  rw [BitVec.getLsbD_and, show (63 : BitVec 32) = 63#32 from rfl, h63, BitVec.getLsbD_ofNat, show 64 = 2 ^ 6 from rfl,
    Nat.testBit_mod_two_pow, ImmMatch.value]
  by_cases h6 : i < 6
  · have hlt : i < m.bits := by omega
    by_cases hs : m.isSigned = true
    · simp only [hs, hm, if_true, if_false, BitVec.getLsbD_signExtend, BitVec.getLsbD_ofNat, h6, hlt, hi, decide_true,
        Bool.and_true, Bool.true_and]
    · simp only [hs, hm, Bool.false_eq_true, if_true, if_false, BitVec.getLsbD_ofNat, h6, hi, decide_true,
        Bool.and_true, Bool.true_and]
  · simp [h6]

theorem shiftLeft_or (a : Nat) {b : Nat} (hb : b < 64) :
    BitVec.ofNat 32 a <<< 6 ||| BitVec.ofNat 32 b = BitVec.ofNat 32 (64 * a + b) := by
  refine BitVec.eq_of_getLsbD_eq fun i hi => ?_
  rw [BitVec.getLsbD_or, BitVec.getLsbD_shiftLeft, BitVec.getLsbD_ofNat, BitVec.getLsbD_ofNat, BitVec.getLsbD_ofNat,
    show 64 = 2 ^ 6 from rfl, Nat.testBit_two_pow_mul_add a hb]
  by_cases h6 : i < 6
  · simp [h6, hi]
  · have hlow : b.testBit i = false := Nat.testBit_lt_two_pow
      (hb.trans_le (Nat.pow_le_pow_right (n := 2) (by decide) (Nat.le_of_not_lt h6)))
    simp [h6, hi, hlow, show i - 6 < 32 by omega]

theorem applyExtender_instruction {checks : MmvecChecks} {r : IsetRow} (c : Codes r.enc) {m : ImmMatch}
    (hm : m ∈ syntaxImms r.syn) (hext : whichExtended S.immextLetter r.opcode = some m.immno) (hbits : 6 ≤ m.bits)
      {a : Nat} {j : Insn}
    (h : applyExtender (S.decodeTables checks) (BitVec.ofNat 32 a <<< 6) (r.instruction S.immextLetter true c) =
      some j) :
    j.opcode = r.opcode ∧ j.extensionValid = true ∧
        j.imm m.immno = BitVec.ofNat 32 (64 * a + c.code m.encLetter % 64) := by
  simp only [applyExtender, bind, Option.bind_eq_some_iff] at h
  obtain ⟨n, hn, h⟩ := h
  obtain rfl : m.immno = n := Option.some.inj (hext.symm.trans hn)
  obtain rfl := Option.some.inj h
  refine ⟨rfl, rfl, ?_⟩
  have himm : (r.instruction S.immextLetter true c).imm m.immno = m.value true (c.code m.encLetter) := by
    have hvalue := r.imm_instruction S.immextLetter true c hm
    rwa [if_pos rfl, hext, beq_self_eq_true] at hvalue
  have hset (i : Insn) (v : BitVec 32) : (i.setImmed m.immno v).imm m.immno = v := by
    unfold ImmMatch.immno
    split <;> rfl
  show ((r.instruction S.immextLetter true c).setImmed m.immno _).imm m.immno = _
  rw [hset, himm, value_low (toLower_letter hm) hbits, shiftLeft_or a (Nat.mod_lt _ (by decide))]

theorem exists_of_forall₂_mem {R : Insn → Insn → Prop} : ∀ {l l' : List Insn}, List.Forall₂ R l l' → ∀ {i}, i ∈ l →
    ∃ j ∈ l', R i j
  | _, _, .cons h t, i, hi => by
    rcases List.mem_cons.1 hi with rfl | hi
    · exact ⟨_, List.mem_cons_self, h⟩
    · obtain ⟨j, hj, hR⟩ := exists_of_forall₂_mem t hi
      exact ⟨j, List.mem_cons_of_mem _ hj, hR⟩

variable {T : DecodeTables}

theorem applyExtenders_behind {e i : Insn} (he : e.isExtender = true) {post : List Insn} :
    ∀ {pre l' : List Insn} {x : Option (BitVec 32)}, applyExtenders T x (pre ++ e :: i :: post) = some l' →
      ∃ j ∈ l', applyExtender T (e.imm 0) i = some j
  | [], l', x, h => by
    obtain ⟨e', he', l'', hl, h⟩ := applyExtenders_cons h
    obtain rfl := Option.some.inj h
    have heq : e' = e := by
      cases x with
      | none => exact (Option.some.inj he').symm
      | some c =>
        obtain ⟨hkind, hext⟩ := applyExtender_some he'
        have hno := Insn.extender_lacks (a := .extendable) he (by decide)
        have hyes := hext.1
        rw [Insn.attrib, ← hkind.1] at hyes
        rw [Insn.attrib, hyes] at hno
        cases hno
    subst heq
    rw [if_pos he] at hl
    obtain ⟨j, hj, l₃, -, hl⟩ := applyExtenders_cons hl
    obtain rfl := Option.some.inj hl
    exact ⟨j, List.mem_cons_of_mem _ List.mem_cons_self, hj⟩
  | k :: pre, l', x, h => by
    obtain ⟨k', -, l'', hl, h⟩ := applyExtenders_cons h
    obtain rfl := Option.some.inj h
    obtain ⟨j, hj, hext⟩ := applyExtenders_behind he hl
    exact ⟨j, List.mem_cons_of_mem _ hj, hext⟩

/-- An extender is assembled from its own letters, and never extended. -/
theorem assembled_extender {e : IsetRow} (he : .terminal e ∈ S.normal.tags) (htag : e.opcode.tag = .a4Ext)
    (ce : Codes e.enc)
    (hce : isPacketEnd ce.word = false) {ext : Bool} {i : Insn} {l : List Insn} (h : Assembled S ext ce.word (i :: l)) :
    i = e.instruction S.immextLetter false ce ∧ l = [] := by
  have hd : (S.decodeTables .never).decodeInsns ext 0 ce.word = _ := decodeInsns_of_assembled h
  have hroot : (S.decodeTables .never).root32 ext ce.word = some (e.instruction S.immextLetter ext ce) :=
    root32_word (Iset.mem_rows32.2 (.inl he)) ce
  have hno : (e.instruction S.immextLetter ext ce).attrib .extendable = false := by
    refine Insn.extender_lacks ?_ (by decide)
    rw [Insn.isExtender_eq]
    exact beq_iff_eq.2 htag
  rw [DecodeTables.decodeInsns, if_pos (bne_iff_ne.2 (not_isPacketEnd hce)), hroot] at hd
  cases ext with
  | true => simp [hno] at hd
  | false =>
    obtain ⟨hi, hl⟩ := List.cons.inj (Option.some.inj (Prod.mk.inj hd).2)
    exact ⟨hi.symm, hl.symm⟩

/-- The first word of a packet gives the first instructions. -/
theorem AssembledWords.head {ext : Bool} {ws rest post : List (BitVec 32)} {l : List Insn}
    (h : AssembledWords S ext ws l)
    {w : BitVec 32} {i : Insn} {tl : List Insn} (hw : Assembled S ext w (i :: tl)) (hws : ws ++ rest = w :: post) :
    ∃ postI, l = i :: postI := by
  have hsame {l' : List Insn} (h' : Assembled S ext w l') : l' = i :: tl := by
    have hd : (S.decodeTables .never).decodeInsns ext 0 w = _ := decodeInsns_of_assembled h'
    rw [decodeInsns_of_assembled hw] at hd
    exact (Option.some.inj (Prod.mk.inj hd).2).symm
  cases h with
  | last h₀ _ =>
    exact ⟨tl, hsame ((List.cons.inj hws).1 ▸ h₀)⟩
  | next h₀ _ _ =>
    obtain ⟨rfl, rfl⟩ := List.cons.inj (hsame ((List.cons.inj hws).1 ▸ h₀))
    exact ⟨_, rfl⟩

/-- The words of a packet give their instructions in order: an extender stands right before what it extends. -/
theorem AssembledWords.extended {e : IsetRow} (he : .terminal e ∈ S.normal.tags) (htag : e.opcode.tag = .a4Ext)
    (ce : Codes e.enc) (hce : isPacketEnd ce.word = false) {w : BitVec 32} {i : Insn} {tl : List Insn}
    (hw : Assembled S true w (i :: tl)) {rest post : List (BitVec 32)} {ext : Bool} {ws : List (BitVec 32)}
      {l : List Insn}
    (h : AssembledWords S ext ws l) : ∀ {pre : List (BitVec 32)}, (∀ v ∈ pre, isPacketEnd v = false) →
      ws ++ rest = pre ++ ce.word :: w :: post →
        ∃ preI postI, l = preI ++ e.instruction S.immextLetter false ce :: i :: postI := by
  induction h with
  | @last ext w₀ l _ hend =>
    intro pre hpre hws
    cases pre with
    | nil =>
      rw [(List.cons.inj hws).1, hce] at hend
      cases hend
    | cons v pre =>
      rw [(List.cons.inj hws).1, hpre v List.mem_cons_self] at hend
      cases hend
  | @next ext w₀ i₀ l₀ ws l' h₀ _ hrest ih =>
    intro pre hpre hws
    cases pre with
    | nil =>
      obtain ⟨rfl, htail⟩ := List.cons.inj hws
      obtain ⟨hi₀, hl₀⟩ := assembled_extender he htag ce hce h₀
      have hmark : i₀.isExtender = true := by
        rw [hi₀, Insn.isExtender_eq]
        exact beq_iff_eq.2 htag
      rw [hmark] at hrest
      obtain ⟨postI, rfl⟩ := hrest.head hw htail
      exact ⟨[], postI, by rw [hi₀, hl₀]; rfl⟩
    | cons v pre =>
      obtain ⟨preI, postI, rfl⟩ := ih (fun u hu => hpre u (List.mem_cons_of_mem _ hu)) (List.cons.inj hws).2
      exact ⟨i₀ :: l₀ ++ preI, postI, by rw [List.append_assoc]⟩

end Constants

/-- **A constant is put together again**: behind an extender in the words of a packet, the immediate that is extended
is the 26 bits of the extender with the low six bits of its own. -/
theorem decodePacket_constant (S : Iset) (checks : MmvecChecks) (words : List (BitVec 32)) (p : Packet)
    (h : (decodePacket (S.decodeTables checks) words).outcome = .packet p) {e : IsetRow}
      (he : .terminal e ∈ S.normal.tags)
    (htag : e.opcode.tag = .a4Ext) (ce : Codes e.enc) {r : IsetRow} (c : Codes r.enc) {w : BitVec 32} {tl : List Insn}
    (hw : Assembled S true w (r.instruction S.immextLetter true c :: tl)) {pre post : List (BitVec 32)}
    (hwords : words.take (maxWords words.length) = pre ++ ce.word :: w :: post)
    (hpre : ∀ v ∈ pre ++ [ce.word], isPacketEnd v = false) {m : ImmMatch} (hm : m ∈ syntaxImms r.syn)
    (hext : whichExtended S.immextLetter r.opcode = some m.immno) (hbits : 6 ≤ m.bits) :
    ∃ j ∈ p.insn, j.opcode = r.opcode ∧ j.extensionValid = true ∧
      j.imm m.immno = BitVec.ofNat 32 (64 * ce.code 'i' + c.code m.encLetter % 64) := by
  obtain ⟨_, _, _, g, -, -, hpacket, hg, hfinish⟩ := decodePacket_packet h
  have hassembled := assembled_of_gather (hg ▸ hpacket.collected.stop)
  rw [hg] at hassembled
  obtain ⟨preI, postI, hinsn⟩ := hassembled.extended he htag ce (hpre _ (List.mem_append_right _ List.mem_cons_self)) hw
    (fun v hv => hpre v (List.mem_append_left _ hv)) ((List.take_append_drop g.read _).trans hwords)
  obtain ⟨hfin, -, -⟩ := finish_packet hfinish
  have hpart1 : ∀ i ∈ g.encoded words, i.part1 = false := fun i hi => by
    rcases List.mem_append.1 hi with hi | hi
    · exact hpacket.collected.part1 i hi
    · exact (endloopInsn_some (Option.mem_toList.1 hi)).2.2.1
  obtain ⟨-, -, l₁, l₂, -, -, h₁, -, h₂, hperm⟩ := finishPacket_arranged hpart1 hpacket.collected.noLoop
    (loopEnd_endloopInsn words g.read) (.inl rfl) hfin
  rw [hinsn, List.append_assoc, List.cons_append, List.cons_append] at h₁
  have hext' : (e.instruction S.immextLetter false ce).isExtender = true := by
    rw [Insn.isExtender_eq]
    exact beq_iff_eq.2 htag
  obtain ⟨j, hj, hj'⟩ := applyExtenders_behind hext' h₁
  rw [extender_imm he htag] at hj'
  obtain ⟨hop, hvalid, himm⟩ := applyExtender_instruction c hm hext hbits hj'
  obtain ⟨k, hk, hsame⟩ := exists_of_forall₂_mem h₂ hj
  refine ⟨k, hperm.mem_iff.2 hk, hsame.opcode.symm.trans hop, hsame.extensionValid.symm.trans hvalid, ?_⟩
  rw [Insn.imm, ← hsame.immed]
  exact himm

/-- `A4_ext` -/
def a4ExtRow : IsetRow where
  opcode := Opcodes.a4Ext
  syn := "immext(#u26:6)".toList
  rregs := []
  wregs := []
  enc := encOf "0000 iiii iiiiiiii PPiiiiii iiiiiiii"
  ops := [.imm 0 12 16 14, .imm 0 14 0 0, .immShift 0 6]
  width := by decide
  generated := by decide
  declared := by decide
  places := by decide
  immnos := by decide
  shifts := by decide
  notEndloop := by decide

/-- `Rd32=vextract(Vu32,Rs32)`, which is not lifted. -/
def Opcodes.v6Extractw : Opcode where
  tag := .other 28
  attribs := [.extension, .cvi]
  regs := [Opcodes.rd]
  parts := []
  supported := false
  generated := nofun
  wellScoped := nofun
  hint_not_call := by decide

/-- `A2_addi` -/
def a2AddiRow : IsetRow where
  opcode := Opcodes.a2Addi
  syn := "Rd32=add(Rs32,#s16)".toList
  rregs := []
  wregs := []
  enc := encOf "1011  iiii iiisssss PPiiiiii iiiddddd"
  ops := [.reg 0 5 0, .reg 1 5 16, .imm 0 7 21 9, .imm 0 9 5 0, .immSxt 0 16]
  width := by decide
  generated := by decide
  declared := by decide
  places := by decide
  immnos := by decide
  shifts := by decide
  notEndloop := by decide

/-- `V6_extractw` -/
def v6ExtractwRow : IsetRow where
  opcode := Opcodes.v6Extractw
  syn := "Rd32=vextract(Vu32,Rs32)".toList
  rregs := []
  wregs := []
  enc := encOf "1001 001 0 000sssss  PP0uuuuu  --1ddddd"
  ops := [.reg 0 5 0, .reg 1 5 8, .reg 2 5 16]
  width := by decide
  generated := by decide
  declared := by decide
  places := by decide
  immnos := by decide
  shifts := by decide
  notEndloop := by decide

/-- `DEF_EXT_SPACE(EXTRACTW, ..)` -/
def extractwSpace : Enc := encOf "1001 001 0 000 iiiii PP0iiiii -01iiiii"

def NormalLeaf.isSpace : NormalLeaf → Bool
  | terminal _ => false
  | extspace _ => true

theorem exists_space {L : DectreeLeaves NormalLeaf.enc} {r : IsetRow} {w : BitVec 32}
    (h : (L.tree.follow r.enc.pattern).any NormalLeaf.isSpace = true) (hw : Matches r.enc.pattern w.getLsbD) :
    ∃ s, L.tree.walk w.getLsbD = some (.extspace s) := by
  cases hl : L.tree.follow r.enc.pattern with
  | none =>
    rw [hl] at h
    cases h
  | some l =>
    rw [hl] at h
    cases l with
    | terminal r' => cases h
    | extspace s => exact ⟨s, Patterns.DecTree.walk_of_follow hw hl⟩

def addiLeaves : DectreeLeaves NormalLeaf.enc where
  tags := [.terminal a4ExtRow, .terminal a2AddiRow, .extspace extractwSpace]
  width := by decide
  separated := by decide +kernel

theorem addiLeaves_space : (addiLeaves.tree.follow v6ExtractwRow.enc.pattern).any NormalLeaf.isSpace = true := by
  decide +kernel

/-- The extender and the addition, and the extraction in its extension space. -/
def addiIset : Iset where
  normal := addiLeaves
  mmvec := ⟨[v6ExtractwRow], by simp [v6ExtractwRow.width], rfl⟩
  subinsns _ := ⟨[], fun _ h => (List.not_mem_nil h).elim, rfl⟩
  normal_whole r hr := by
    simp only [addiLeaves, List.mem_cons, NormalLeaf.terminal.injEq, reduceCtorEq, List.not_mem_nil, or_false] at hr
    rcases hr with rfl | rfl <;> decide
  extender r hr htag := by
    simp only [addiLeaves, List.mem_cons, NormalLeaf.terminal.injEq, reduceCtorEq, List.not_mem_nil, or_false] at hr
    rcases hr with rfl | rfl
    · rfl
    · cases htag
  mmvec_whole r hr := by
    obtain rfl := List.mem_singleton.1 hr
    decide
  mmvec_space r hr w hw := by
    obtain rfl := List.mem_singleton.1 hr
    exact exists_space addiLeaves_space hw
  subinsns_half _ _ h := by cases h
  immextLetter _ := .s

/-- `{ r3 = add(r4, ##0x12345678) }` -/
def addiWords : List (BitVec 32) := [0x01235159, 0xb004c703]

theorem word_ext : (a4ExtRow.enc.codes 0x01235159).word = 0x01235159 :=
  Codes.word_codes a4ExtRow.width (IsetRow.passes_iff.1 (by decide))

theorem word_addi : (a2AddiRow.enc.codes 0xb004c703).word = 0xb004c703 :=
  Codes.word_codes a2AddiRow.width (IsetRow.passes_iff.1 (by decide))

theorem ext_assembled : Assembled addiIset false 0x01235159
    [a4ExtRow.instruction addiIset.immextLetter false (a4ExtRow.enc.codes 0x01235159)] := by
  have h : Assembled addiIset false (a4ExtRow.enc.codes 0x01235159).word _ :=
    .word (Iset.mem_rows32.2 (.inl List.mem_cons_self)) _ (by decide) fun h => Bool.noConfusion h
  rwa [word_ext] at h

theorem addi_assembled : Assembled addiIset true 0xb004c703
    [a2AddiRow.instruction addiIset.immextLetter true (a2AddiRow.enc.codes 0xb004c703)] := by
  have h : Assembled addiIset true (a2AddiRow.enc.codes 0xb004c703).word _ :=
    .word (Iset.mem_rows32.2 (.inl (List.mem_cons_of_mem _ List.mem_cons_self))) _ (by decide) fun _ => rfl
  rwa [word_addi] at h

theorem addiWords_assembled : AssembledWords addiIset false addiWords
    [a4ExtRow.instruction addiIset.immextLetter false (a4ExtRow.enc.codes 0x01235159),
      a2AddiRow.instruction addiIset.immextLetter true (a2AddiRow.enc.codes 0xb004c703)] :=
  .next ext_assembled (by decide) (.last addi_assembled (by decide))

/-- The constant of `add(r4, ##0x12345678)`. -/
theorem addi_constant : ∃ p, (decodePacket (addiIset.decodeTables .never) addiWords).outcome = .packet p ∧
    ∃ j ∈ p.insn, j.opcode = Opcodes.a2Addi ∧ j.extensionValid = true ∧ j.imm 0 = 0x12345678 := by
  have hp : ∃ p, (decodePacket (addiIset.decodeTables .never) addiWords).outcome = .packet p :=
    ⟨_, decodePacket_of_assembled .never (show _ = addiWords ++ [] from rfl) addiWords_assembled rfl⟩
  obtain ⟨p, hp⟩ := hp
  have hwords : addiWords.take (maxWords addiWords.length) =
      [] ++ (a4ExtRow.enc.codes 0x01235159).word :: 0xb004c703 :: [] := by
    rw [word_ext]
    rfl
  have hpre : ∀ v ∈ [] ++ [(a4ExtRow.enc.codes 0x01235159).word], isPacketEnd v = false := fun v hv => by
    rw [List.mem_singleton.1 hv, word_ext]
    decide
  obtain ⟨j, hj, hop, hvalid, himm⟩ := decodePacket_constant addiIset .never addiWords p hp List.mem_cons_self rfl _ _
    addi_assembled hwords hpre (m := ⟨'s', ['1', '6'], []⟩) (by decide) rfl (by decide)
  exact ⟨p, hp, j, hj, hop, hvalid, himm.trans (by decide)⟩

end Hex
