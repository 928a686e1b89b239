import BinjaHexagon.Assembled
/-!
# OperandFaithful — no operand is lost

Two words of one tag decode alike if and only if they agree in the letters of its operands: the registers of a mapped
operand are all different, and an immediate keeps its bits when its sign is extended and it is shifted.
-/
namespace Hex

/-- The number of a table stands behind its underscores. -/
theorem num_of_mapping {digits num : List Char} {d : Char} (hd : d ≠ '_') (hnum : num.takeWhile Char.isDigit ≠ []) :
    ∀ (letters : List Char) (k : Nat), (letters.map fun _ => '_') ++ num = List.replicate k '_' ++ d :: digits →
      num = d :: digits
  | [], 0, h => h
  | [], k + 1, h => by
    rw [List.map_nil, List.nil_append, List.replicate_succ, List.cons_append] at h
    rw [h] at hnum
    exact absurd rfl hnum
  | _ :: _, 0, h => absurd (List.cons.inj h).1.symm hd
  | _ :: letters, k + 1, h => num_of_mapping hd hnum letters k (List.cons.inj h).2

/-- A table of registers has one for every code of the operand, and none twice. -/
theorem decodeRegister_mapping {m : RegMatch} {l : List Nat} (h : decodeRegister m.mapping = some l)
    (hpos : m.numChoices ≠ 0) :
    l.length = m.numChoices ∧ l.Nodup := by
  have hnum : m.num.takeWhile Char.isDigit ≠ [] := fun h0 => hpos (by rw [RegMatch.numChoices, h0]; rfl)
  have hchoices (k : Nat) (d : Char) (digits : List Char) (hd : d ≠ '_')
      (hm : m.mapping = 'R' :: (List.replicate k '_' ++ d :: digits)) :
      m.numChoices = Syntax.toNat ((d :: digits).takeWhile Char.isDigit) := by
    rw [RegMatch.numChoices, num_of_mapping hd hnum m.letters k (List.cons.inj hm).2]
  unfold decodeRegister at h
  split at h
  · rename_i hm
    obtain rfl := Option.some.inj h
    rw [hchoices 1 '1' ['6'] (by decide) hm]
    decide
  · split at h
    · rename_i hm
      obtain rfl := Option.some.inj h
      rw [hchoices 2 '8' [] (by decide) hm]
      decide
    · split at h
      · rename_i hm
        obtain rfl := Option.some.inj h
        rw [hchoices 1 '8' [] (by decide) hm]
        decide
      · cases h

/-- An operand stands for another register under every code. -/
theorem RegMatch.register_inj {m : RegMatch} (hmap : m.isMapped = true → (decodeRegister m.mapping).isSome = true)
    {a b : Nat}
    (ha : a < m.numChoices) (hb : b < m.numChoices) : m.register a = m.register b ↔ a = b := by
  unfold RegMatch.register
  split
  · rename_i hmapped
    obtain ⟨l, hl⟩ := Option.isSome_iff_exists.1 (hmap hmapped)
    obtain ⟨hlen, hnd⟩ := decodeRegister_mapping hl (by omega)
    rw [hl, Option.getD_some, List.getD_eq_getElem _ _ (by omega), List.getD_eq_getElem _ _ (by omega)]
    exact hnd.getElem_inj_iff
  · rfl

theorem getLsbD_value {m : ImmMatch} (hm : m.letter.toLower ≠ 'n') (hfit : m.bits + m.shamt ≤ 32) (extended : Bool)
    (code : Nat)
    {i : Nat} (hi : i < m.bits) :
    (m.value extended code).getLsbD (i + if extended then 0 else m.shamt) = code.testBit i := by
  have hlow : (if m.isSigned then (BitVec.ofNat m.bits code).signExtend 32 else BitVec.ofNat 32 code).getLsbD i =
      code.testBit i := by
    have h32 : i < 32 := by omega
    by_cases hs : m.isSigned = true
    · rw [if_pos hs, BitVec.getLsbD_signExtend, if_pos hi, BitVec.getLsbD_ofNat, decide_eq_true h32, decide_eq_true hi,
        Bool.true_and, Bool.true_and]
    · rw [if_neg hs, BitVec.getLsbD_ofNat, decide_eq_true h32, Bool.true_and]
  simp only [ImmMatch.value, hm, if_false]
  cases extended with
  | true => exact hlow
  | false =>
    have hlt : i + m.shamt < 32 := by omega
    simp only [Bool.false_eq_true, if_false, BitVec.getLsbD_shiftLeft, hlt, decide_true, Bool.true_and,
      decide_eq_false (show ¬i + m.shamt < m.shamt by omega), Bool.not_false, Nat.add_sub_cancel]
    exact hlow

theorem value_inj {m : ImmMatch} (hm : m.letter.toLower ≠ 'n') (hfit : m.bits + m.shamt ≤ 32) (extended : Bool)
    {a b : Nat}
    (ha : a < 2 ^ m.bits) (hb : b < 2 ^ m.bits) : m.value extended a = m.value extended b ↔ a = b := by
  refine ⟨fun h => Nat.eq_of_testBit_eq fun i => ?_, congrArg _⟩
  by_cases hi : i < m.bits
  · rw [← getLsbD_value hm hfit extended a hi, h, getLsbD_value hm hfit extended b hi]
  · have hpow := Nat.pow_le_pow_right (n := 2) (by decide) (Nat.le_of_not_lt hi)
    rw [Nat.testBit_lt_two_pow (ha.trans_le hpow), Nat.testBit_lt_two_pow (hb.trans_le hpow)]

theorem immOps_count {enc : Enc} {m : ImmMatch} {ops : List DecodeOp} (h : immOps enc m = some ops) :
    enc.count m.encLetter = m.bits := by
  simp only [immOps, Option.bind_eq_bind, Option.bind_eq_some_iff] at h
  obtain ⟨pieces, hpieces, -⟩ := h
  have hlen := (DecodeOp.immPieces_exec none 0 hpieces).1
  have hbits : DecodeOp.runBits 0 (runs m.encLetter 0 enc) = spelled m.encLetter (BitVec.getLsbD 0) 0 enc :=
    flatMap_runs enc 0
  rwa [List.reverse_reverse, hbits, length_spelled] at hlen

theorem allImmOps_mem {enc : Enc} : ∀ {l : List ImmMatch} {ops : List DecodeOp}, allImmOps enc l = some ops →
    ∀ m ∈ l, ∃ ops', immOps enc m = some ops'
  | m :: l, ops, h, m', hm => by
    simp only [allImmOps, Option.bind_eq_bind, Option.bind_eq_some_iff] at h
    obtain ⟨first, hfirst, rest, hrest, -⟩ := h
    rcases List.mem_cons.1 hm with rfl | hl
    · exact ⟨first, hfirst⟩
    · exact allImmOps_mem hrest m' hl

namespace IsetRow

variable (r : IsetRow)

theorem count_encLetter {m : ImmMatch} (hm : m ∈ syntaxImms r.syn) : r.enc.count m.encLetter = m.bits := by
  have h := r.generated
  simp only [opInfo, Option.bind_eq_bind, Option.bind_eq_some_iff] at h
  obtain ⟨regs, -, imms, himms, -⟩ := h
  obtain ⟨ops, hops⟩ := allImmOps_mem himms m hm
  exact immOps_count hops

theorem registers_eq {c c' : Codes r.enc} (h : ∀ m ∈ syntaxRegs r.syn, c.code m.letter = c'.code m.letter) :
    r.registers c = r.registers c' := by
  have hmap : (syntaxRegs r.syn).map (fun m => m.register (c.code m.letter)) =
      (syntaxRegs r.syn).map fun m => m.register (c'.code m.letter) := List.map_congr_left fun m hm => by rw [h m hm]
  rw [registers, hmap, registers]

theorem immediate_eq {c c' : Codes r.enc} (h : ∀ m ∈ syntaxImms r.syn, c.code m.encLetter = c'.code m.encLetter)
    (extended : Option Nat) : r.immediate extended c = r.immediate extended c' := by
  funext k
  unfold immediate
  split
  · rename_i m hm
    rw [h m (List.mem_of_find?_eq_some hm)]
  · rfl

theorem instruction_eq_iff (letter : Opcode → ImmLetter) (ext : Bool) (c c' : Codes r.enc) :
    r.instruction letter ext c = r.instruction letter ext c' ↔
      (∀ m ∈ syntaxRegs r.syn, c.code m.letter = c'.code m.letter) ∧
        ∀ m ∈ syntaxImms r.syn, c.code m.encLetter = c'.code m.encLetter := by
  constructor
  · intro h
    refine ⟨fun m hm => ?_, fun m hm => ?_⟩
    · obtain ⟨k, hk⟩ := List.getElem?_of_mem hm
      obtain ⟨hcount, hmap⟩ := r.regOps_of_mem hm
      have hreg := congrArg (Insn.reg · k) h
      simp only [r.reg_instruction letter ext _ hk] at hreg
      exact (RegMatch.register_inj hmap ((c.lt _).trans_eq hcount) ((c'.lt _).trans_eq hcount)).1 hreg
    · have himm := congrArg (Insn.imm · m.immno) h
      simp only [r.imm_instruction letter ext _ hm] at himm
      have hcount := congrArg (2 ^ ·) (r.count_encLetter hm)
      exact (value_inj (toLower_letter hm) (r.shifts m hm) _ ((c.lt _).trans_eq hcount) ((c'.lt _).trans_eq hcount)).1
        himm
  · rintro ⟨hreg, himm⟩
    simp only [instruction, r.registers_eq hreg, r.immediate_eq himm]

/-- **No operand is lost**: two words of one tag decode alike if and only if they agree in the letters of its
operands. -/
theorem decodeOp_eq_iff (letter : Opcode → ImmLetter) (ext : Bool) (w w' : BitVec 32) :
    r.decodeOp letter ext w = r.decodeOp letter ext w' ↔
      (∀ m ∈ syntaxRegs r.syn, r.enc.code w m.letter = r.enc.code w' m.letter) ∧
        ∀ m ∈ syntaxImms r.syn, r.enc.code w m.encLetter = r.enc.code w' m.encLetter := by
  rw [r.decodeOp_eq, r.decodeOp_eq, r.instruction_eq_iff]
  refine and_congr (forall₂_congr fun m hm => ?_) (forall₂_congr fun m _ => ?_)
  · rw [r.enc.codes_code w (letter_not_opcodeBit hm), r.enc.codes_code w' (letter_not_opcodeBit hm)]
  · rw [r.enc.codes_code w (isOpcodeBit_encLetter m), r.enc.codes_code w' (isOpcodeBit_encLetter m)]

end IsetRow

end Hex
