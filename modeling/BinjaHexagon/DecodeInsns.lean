import BinjaHexagon.OperandBits
import BinjaHexagon.PacketDecode
/-!
# DecodeInsns — the generated decoder

The instruction set that `dectree.py` reads, and the decoder that comes of it: `decode_insns`,
`decode_insns_tablewalk`, `decode_subinsn_tablewalk` and `decode_op` over the tables of `auto_separate`.  An encoding
is read from its lowest bit on.
-/
namespace Hex

open Patterns (Pattern Matches DecTree)

/-- The tags of one tree, with what the generator checks of them. -/
structure DectreeLeaves {τ : Type} (encs : τ → Enc) where
  tags : List τ
  width : ∀ t ∈ tags, (encs t).length = 32
  separated : (Dectree.separate encs 32 tags).isSome = true

namespace DectreeLeaves

variable {τ : Type} {encs : τ → Enc} (L : DectreeLeaves encs)

def tree : DecTree τ := (Dectree.separate encs 32 L.tags).get L.separated

theorem decides : L.tree.Decides (fun t => (encs t).pattern) L.tags :=
  Dectree.decides_of_autoSeparate (Option.some_get L.separated).symm

end DectreeLeaves

attribute [irreducible] DectreeLeaves.tree

def RegType.char : RegType → Char
  | .C => 'C' | .N => 'N' | .P => 'P' | .R => 'R'

def RegLetter.char : RegLetter → Char
  | .d => 'd' | .e => 'e' | .s => 's' | .t => 't' | .u => 'u' | .v => 'v' | .w => 'w' | .x => 'x' | .y => 'y'

def RegId.letters (id : RegId) : List Char := if id.pair then [id.letter.char, id.letter.char] else [id.letter.char]

/-- The operands an opcode declares are those of its syntax, in order, and of no more registers than there are. -/
def declares (regs : List OperandDecl) (syn : List Char) : Bool :=
  decide (regs.length ≤ (syntaxRegs syn).length) && (regs.zip (syntaxRegs syn)).all fun p =>
    p.2.type == p.1.regtype.char && p.2.letters == p.1.regid.letters && decide (p.2.numChoices ≤ p.1.limit)

/-- An instruction as `iset` has it, its encoding padded to 32 bits, with `DECODE_OPINFO`.  There are five places for
its registers, its immediates are of 32 bits at most, and no endloop has an encoding. -/
structure IsetRow where
  opcode : Opcode
  syn : List Char
  rregs : List String
  wregs : List String
  enc : Enc
  ops : List DecodeOp
  width : enc.length = 32
  generated : opInfo enc syn rregs wregs = some ops
  declared : declares opcode.regs syn = true
  places : (syntaxRegs syn).length ≤ 5
  immnos : ((syntaxImms syn).map ImmMatch.immno).Nodup
  shifts : ∀ m ∈ syntaxImms syn, m.bits + m.shamt ≤ 32
  notEndloop : opcode.endsLoop = false

/-- `opcode_which_immediate_is_extended`, `letter` being what follows `IMMEXT(`. -/
def whichExtended (letter : Opcode → ImmLetter) (o : Opcode) : Option Nat :=
  if o.attrib .extendable then
    some (match letter o with
      | .r | .s | .u | .m => 0
      | .R | .S | .U => 1)
  else none

namespace IsetRow

variable (r : IsetRow)

/-- `insn->regno` and `insn->immed` after `DECODE_OPINFO`. -/
def fields (extended : Option Nat) (w : BitVec 32) : OpFields :=
    DecodeOp.execAll extended w r.ops ⟨fun _ => 0, fun _ => 0⟩

/-- The registers its letters stand for: those of the syntax, then those it implies. -/
def registers (c : Codes r.enc) : List Nat :=
  (syntaxRegs r.syn).map (fun m => m.register (c.code m.letter)) ++ implicitRegisters r.rregs r.wregs

/-- The immediate its letters stand for. -/
def immediate (extended : Option Nat) (c : Codes r.enc) (k : Nat) : BitVec 32 :=
  match (syntaxImms r.syn).find? fun m => m.immno == k with
  | some m => m.value (extended == some k) (c.code m.encLetter)
  | none => 0

end IsetRow

theorem decodeRegister_lt {name : List Char} {l : List Nat} (h : decodeRegister name = some l)
    (k : Nat) : l.getD k 0 < 32 := by
  have hall : ∀ n ∈ l, n < 32 := by
    unfold decodeRegister at h
    split at h
    · obtain rfl := Option.some.inj h
      decide
    · split at h
      · obtain rfl := Option.some.inj h
        decide
      · split at h
        · obtain rfl := Option.some.inj h
          decide
        · cases h
  rw [List.getD_eq_getElem?_getD]
  cases hk : l[k]? with
  | none => exact Nat.succ_pos _
  | some n => exact hall n (List.mem_of_getElem? hk)

theorem allRegOps_mem {enc : Enc} : ∀ {k : Nat} {l : List RegMatch} {ops : List DecodeOp},
    allRegOps enc k l = some ops → ∀ r ∈ l, ∃ k' ops', regOps enc k' r = some ops'
  | k, r :: l, ops, h, r', hr => by
    simp only [allRegOps, Option.bind_eq_bind, Option.bind_eq_some_iff] at h
    obtain ⟨first, hfirst, rest, hrest, -⟩ := h
    rcases List.mem_cons.1 hr with rfl | hl
    · exact ⟨k, first, hfirst⟩
    · exact allRegOps_mem hrest r' hl

namespace IsetRow

variable {r : IsetRow} {c : Codes r.enc}

/-- What the generator checks of every register operand. -/
theorem regOps_of_mem (r : IsetRow) {m : RegMatch} (hm : m ∈ syntaxRegs r.syn) :
    2 ^ r.enc.count m.letter = m.numChoices ∧ (m.isMapped = true → (decodeRegister m.mapping).isSome = true) := by
  have h := r.generated
  simp only [opInfo, Option.bind_eq_bind, Option.bind_eq_some_iff] at h
  obtain ⟨regs, hregs, -⟩ := h
  obtain ⟨k, ops, hops⟩ := allRegOps_mem hregs m hm
  exact DecodeOp.regOps_some hops

theorem registers_lt {k : Nat} {d : OperandDecl} (hd : r.opcode.regs[k]? = some d) :
    (r.registers c).getD k 0 < d.limit := by
  have hdecl := r.declared
  simp only [declares, Bool.and_eq_true, decide_eq_true_eq, List.all_eq_true, beq_iff_eq] at hdecl
  obtain ⟨hlen, hall⟩ := hdecl
  have hk : k < (syntaxRegs r.syn).length := by
    obtain ⟨hk, -⟩ := List.getElem?_eq_some_iff.1 hd
    omega
  obtain ⟨m, hm⟩ : ∃ m, (syntaxRegs r.syn)[k]? = some m := ⟨_, List.getElem?_eq_getElem hk⟩
  have hzip : (d, m) ∈ r.opcode.regs.zip (syntaxRegs r.syn) :=
    List.mem_of_getElem? (i := k) (by rw [List.getElem?_zip_eq_some]; exact ⟨hd, hm⟩)
  obtain ⟨⟨htype, -⟩, hchoices⟩ := hall _ hzip
  have hget : (r.registers c).getD k 0 = m.register (c.code m.letter) := by
    rw [registers, List.getD_eq_getElem?_getD, List.getElem?_append_left (by rw [List.length_map]; exact hk),
      List.getElem?_map, hm]
    rfl
  obtain ⟨hcount, hmap⟩ := regOps_of_mem r (List.mem_of_getElem? hm)
  rw [hget, RegMatch.register]
  split
  · rename_i hmapped
    obtain ⟨l, hl⟩ := Option.isSome_iff_exists.1 (hmap hmapped)
    have hlt : l.getD (c.code m.letter) 0 < 32 := decodeRegister_lt hl _
    have hlimit : d.limit = 32 := by
      unfold OperandDecl.limit
      refine if_neg fun hp => ?_
      have hm : m.type = 'P' := by
        rw [show m.type = d.regtype.char from htype, hp]
        rfl
      simp [RegMatch.isMapped, hm] at hmapped
    rw [hl, Option.getD_some, hlimit]
    exact hlt
  · exact (c.lt m.letter).trans_le (hcount.le.trans hchoices)

/-- **What `DECODE_OPINFO` puts into the fields.** -/
theorem fields_regno (extended : Option Nat) (w : BitVec 32) (k : Nat) :
    (r.fields extended w).regno k = (r.registers (r.enc.codes w)).getD k 0 := by
  have hletters : (syntaxRegs r.syn).map (fun m => m.register (r.enc.code w m.letter)) =
      (syntaxRegs r.syn).map fun m => m.register ((r.enc.codes w).code m.letter) := by
    refine List.map_congr_left fun m hm => ?_
    rw [r.enc.codes_code w (letter_not_opcodeBit hm)]
  rw [registers, ← hletters]
  exact (DecodeOp.opInfo_exec extended w r.width.le r.generated r.immnos).1 k

theorem fields_immed (extended : Option Nat) (w : BitVec 32) (k : Nat) :
    (r.fields extended w).immed k = r.immediate extended (r.enc.codes w) k := by
  obtain ⟨-, himm, hother⟩ := DecodeOp.opInfo_exec extended w r.width.le r.generated r.immnos
  unfold immediate
  split
  · rename_i m hm
    have hk : m.immno = k := by simpa using List.find?_some hm
    have hfield := himm m (List.mem_of_find?_eq_some hm)
    rw [hk] at hfield
    rw [fields, hfield, r.enc.codes_code w (isOpcodeBit_encLetter m)]
  · rename_i hm
    exact hother k fun m hmem heq => List.find?_eq_none.1 hm m hmem (by simpa using heq)

end IsetRow

theorem IsetRow.immediate_of_mem (r : IsetRow) (extended : Option Nat) (c : Codes r.enc) {m : ImmMatch}
    (hm : m ∈ syntaxImms r.syn) :
    r.immediate extended c m.immno = m.value (extended == some m.immno) (c.code m.encLetter) := by
  have hfind : ((syntaxImms r.syn).find? fun m' => m'.immno == m.immno) = some m := by
    cases hf : (syntaxImms r.syn).find? fun m' => m'.immno == m.immno with
    | none => exact absurd (beq_self_eq_true m.immno) (by simpa using List.find?_eq_none.1 hf m hm)
    | some m' =>
      have heq : m'.immno = m.immno := by simpa using List.find?_some hf
      rw [List.inj_on_of_nodup_map r.immnos (List.mem_of_find?_eq_some hf) hm heq]
  rw [IsetRow.immediate, hfind]

/-- `decode_op`; there are five places for registers and two for immediates. -/
def IsetRow.decodeOp (r : IsetRow) (letter : Opcode → ImmLetter) (ext : Bool) (encoding : BitVec 32) : Insn where
  opcode := r.opcode
  regno := (List.range 5).map (r.fields (if ext then whichExtended letter r.opcode else none) encoding).regno
  immed := (List.range 2).map (r.fields (if ext then whichExtended letter r.opcode else none) encoding).immed
  part1 := false
  extensionValid := ext
  regno_lt k d hd := by
    rw [List.getD_eq_getElem?_getD, List.getElem?_map]
    by_cases hk : k < 5
    · rw [List.getElem?_range hk, Option.map_some, Option.getD_some, IsetRow.fields_regno]
      exact IsetRow.registers_lt hd
    · rw [List.getElem?_eq_none (by simpa using hk)]
      show 0 < d.limit
      unfold OperandDecl.limit
      split <;> decide

inductive SubinsnClass where
  | A | L1 | L2 | S1 | S2
  deriving Repr, DecidableEq

/-- `subinsn_groupings`: the classes of the halves, unless it is `RESERVED`. -/
structure SubinsnGrouping where
  classes : Option (SubinsnClass × SubinsnClass)
  enc : Enc
  deriving Repr, DecidableEq

/-- `DEF_PACKED32` -/
def packed32 : List SubinsnGrouping := [
  ⟨some (.L1, .L1), encOf "000B BBBB BBBB BBBB EE0A AAAA AAAA AAAA"⟩,
  ⟨some (.L2, .L1), encOf "000B BBBB BBBB BBBB EE1A AAAA AAAA AAAA"⟩,
  ⟨some (.L2, .L2), encOf "001B BBBB BBBB BBBB EE0A AAAA AAAA AAAA"⟩,
  ⟨some (.A, .A), encOf "001B BBBB BBBB BBBB EE1A AAAA AAAA AAAA"⟩,
  ⟨some (.L1, .A), encOf "010B BBBB BBBB BBBB EE0A AAAA AAAA AAAA"⟩,
  ⟨some (.L2, .A), encOf "010B BBBB BBBB BBBB EE1A AAAA AAAA AAAA"⟩,
  ⟨some (.S1, .A), encOf "011B BBBB BBBB BBBB EE0A AAAA AAAA AAAA"⟩,
  ⟨some (.S2, .A), encOf "011B BBBB BBBB BBBB EE1A AAAA AAAA AAAA"⟩,
  ⟨some (.S1, .L1), encOf "100B BBBB BBBB BBBB EE0A AAAA AAAA AAAA"⟩,
  ⟨some (.S1, .L2), encOf "100B BBBB BBBB BBBB EE1A AAAA AAAA AAAA"⟩,
  ⟨some (.S1, .S1), encOf "101B BBBB BBBB BBBB EE0A AAAA AAAA AAAA"⟩,
  ⟨some (.S2, .S1), encOf "101B BBBB BBBB BBBB EE1A AAAA AAAA AAAA"⟩,
  ⟨some (.S2, .L1), encOf "110B BBBB BBBB BBBB EE0A AAAA AAAA AAAA"⟩,
  ⟨some (.S2, .L2), encOf "110B BBBB BBBB BBBB EE1A AAAA AAAA AAAA"⟩,
  ⟨some (.S2, .S2), encOf "111B BBBB BBBB BBBB EE0A AAAA AAAA AAAA"⟩,
  ⟨none, encOf "111B BBBB BBBB BBBB EE1A AAAA AAAA AAAA"⟩]

set_option maxRecDepth 20000 in
/-- `dectree_subinsn_groupings` -/
def groupings : DectreeLeaves SubinsnGrouping.enc where
  tags := packed32
  width := by decide +kernel
  separated := by decide +kernel

/-- A leaf of `dectree_normal`: an instruction, or one of `enc_ext_spaces`. -/
inductive NormalLeaf where
  | terminal (r : IsetRow)
  | extspace (enc : Enc)

def NormalLeaf.enc : NormalLeaf → Enc
  | terminal r => r.enc
  | extspace enc => enc

/-- `PP` -/
def Enc.hasParseBits (e : Enc) : Bool := runs 'P' 0 e == [(14, 2)]

/-- The instructions by their `enc_class`, as `iset.py` and `encode.def` have them: what stands alone has parse bits, a
half of a duplex is thirteen bits, and every word of `mmvec` comes to an extension space on its way through the tree of
the others, though not each lies in the pattern of one (`V6_extractw` leaves open a bit that `EXTRACTW` fixes).
`A4_ext` is the extender. -/
structure Iset where
  normal : DectreeLeaves NormalLeaf.enc
  mmvec : DectreeLeaves IsetRow.enc
  subinsns : SubinsnClass → DectreeLeaves IsetRow.enc
  normal_whole : ∀ r, .terminal r ∈ normal.tags → r.opcode.attrib .subinsn = false ∧ r.enc.hasParseBits = true
  extender : ∀ r, .terminal r ∈ normal.tags → r.opcode.tag = .a4Ext → r.syn = "immext(#u26:6)".toList
  mmvec_whole : ∀ r ∈ mmvec.tags, r.opcode.attrib .subinsn = false ∧ r.enc.hasParseBits = true
  mmvec_space : ∀ r ∈ mmvec.tags, ∀ w : BitVec 32, Matches r.enc.pattern w.getLsbD →
    ∃ s, normal.tree.walk w.getLsbD = some (.extspace s)
  subinsns_half : ∀ c, ∀ r ∈ (subinsns c).tags, r.opcode.attrib .subinsn = true ∧ ∃ e : Enc, e.length = 13 ∧
    r.enc = e.padded
  /-- What follows `IMMEXT(` in the short code. -/
  immextLetter : Opcode → ImmLetter

/-- `get_insn_a`, `get_insn_b` -/
def getInsnA (encoding : BitVec 32) : BitVec 32 := (encoding.extractLsb' 0 13).setWidth 32
def getInsnB (encoding : BitVec 32) : BitVec 32 := (encoding.extractLsb' 16 13).setWidth 32

/-- `decode_itable` passes the encoding.  `decode_legacy_itable` passes none: it asks for `~0` under the mask zero. -/
def IsetRow.passes (r : IsetRow) (encoding : BitVec 32) : Bool := encoding &&& r.enc.mask == r.enc.matchBits

/-- `decode_subinsn_tablewalk`, and the walk of an extension's tree: the tag. -/
def DectreeLeaves.lookup (L : DectreeLeaves IsetRow.enc) (encoding : BitVec 32) : Option IsetRow :=
  (L.tree.walk encoding.getLsbD).filter fun r => r.passes encoding

namespace Iset

variable (S : Iset)

/-- `decode_insns_tablewalk` from `DECODE_ROOT_32`; every extension space leads to the tree of `mmvec`. -/
def lookup32 (encoding : BitVec 32) : Option IsetRow :=
  match S.normal.tree.walk encoding.getLsbD with
  | some (.terminal r) => if r.passes encoding then some r else none
  | some (.extspace _) => S.mmvec.lookup encoding
  | none => none

def root32 (ext : Bool) (encoding : BitVec 32) : Option Insn :=
  (S.lookup32 encoding).map fun r => r.decodeOp S.immextLetter ext encoding

/-- `decode_insns_tablewalk` from `DECODE_ROOT_EE`: the second half first, into `insn`. -/
def rootEe (ext : Bool) (encoding : BitVec 32) : Option (Option Insn × Option Insn) :=
  ((groupings.tree.walk encoding.getLsbD).bind SubinsnGrouping.classes).map fun c =>
    (((S.subinsns c.2).lookup (getInsnB encoding)).map fun r => r.decodeOp S.immextLetter ext (getInsnB encoding),
      ((S.subinsns c.1).lookup (getInsnA encoding)).map fun r => r.decodeOp S.immextLetter false (getInsnA encoding))

/-- The tags of whole words. -/
def rows32 : List IsetRow :=
  (S.normal.tags.filterMap fun l => match l with | .terminal r => some r | .extspace _ => none) ++ S.mmvec.tags

end Iset

theorem IsetRow.passes_iff {r : IsetRow} {w : BitVec 32} : r.passes w = true ↔ Matches r.enc.pattern w.getLsbD := by
  rw [IsetRow.passes, beq_iff_eq, mask_match_iff r.width.le]

/-- **A lookup finds the tag whose encoding the word matches.** -/
theorem DectreeLeaves.lookup_iff (L : DectreeLeaves IsetRow.enc) {w : BitVec 32} {r : IsetRow} :
    L.lookup w = some r ↔ r ∈ L.tags ∧ Matches r.enc.pattern w.getLsbD := by
  rw [DectreeLeaves.lookup, Option.filter_eq_some_iff, IsetRow.passes_iff]
  exact L.decides.walk_iff

namespace Iset

variable {S : Iset} {w : BitVec 32} {r : IsetRow}

theorem mem_rows32 : r ∈ S.rows32 ↔ .terminal r ∈ S.normal.tags ∨ r ∈ S.mmvec.tags := by
  rw [rows32, List.mem_append, List.mem_filterMap]
  refine or_congr_left ⟨?_, fun h => ⟨_, h, rfl⟩⟩
  rintro ⟨l, hl, hr⟩
  cases l with
  | terminal r' =>
    obtain rfl := Option.some.inj hr
    exact hl
  | extspace e => cases hr

/-- What the walk finds is a row of the tables, and the word matches it. -/
theorem matches_of_lookup32 (h : S.lookup32 w = some r) : r ∈ S.rows32 ∧ Matches r.enc.pattern w.getLsbD := by
  rw [mem_rows32]
  unfold lookup32 at h
  split at h
  · rename_i r' hwalk
    split at h
    · rename_i hpass
      obtain rfl := Option.some.inj h
      exact ⟨.inl (S.normal.decides.mem hwalk), IsetRow.passes_iff.1 hpass⟩
    · cases h
  · obtain ⟨hmem, hmatch⟩ := S.mmvec.lookup_iff.1 h
    exact ⟨.inr hmem, hmatch⟩
  · cases h

theorem lookup32_of_matches (hr : r ∈ S.rows32) (hmatch : Matches r.enc.pattern w.getLsbD) : S.lookup32 w = some r := by
  rcases mem_rows32.1 hr with hr | hr
  · have hwalk := S.normal.decides.complete hr hmatch
    rw [lookup32, hwalk]
    exact if_pos (IsetRow.passes_iff.2 hmatch)
  · obtain ⟨s, hs⟩ := S.mmvec_space r hr w hmatch
    rw [lookup32, hs]
    exact S.mmvec.lookup_iff.2 ⟨hr, hmatch⟩

/-- **A word is decoded as the one instruction whose encoding it matches**, over both trees. -/
theorem lookup32_iff : S.lookup32 w = some r ↔ r ∈ S.rows32 ∧ Matches r.enc.pattern w.getLsbD :=
  ⟨matches_of_lookup32, fun ⟨hr, hmatch⟩ => lookup32_of_matches hr hmatch⟩

end Iset

theorem IsetRow.decodeOp_fresh (r : IsetRow) (letter : Opcode → ImmLetter) (ext : Bool) (w : BitVec 32) {sub : Bool}
    (hsub : r.opcode.attrib .subinsn = sub) : (r.decodeOp letter ext w).Fresh ext sub :=
  ⟨rfl, rfl, r.notEndloop, hsub⟩

/-- `mmvec_ext_decode_checks`: it gives up, or changes nothing but register numbers. -/
structure MmvecChecks where
  check : List Insn → Option (List Insn)
  same : ∀ l, ∀ l' ∈ check l, List.Forall₂ Insn.SameButRegno l l'

/-- Checks that always give up. -/
def MmvecChecks.never : MmvecChecks where
  check _ := none
  same _ _ h := by cases h

namespace Iset

variable (S : Iset)

theorem whole_of_mem {r : IsetRow} (hr : r ∈ S.rows32) : r.opcode.attrib .subinsn = false ∧ r.enc.hasParseBits = true :=
  (mem_rows32.1 hr).elim (S.normal_whole r) (S.mmvec_whole r)

/-- The tables of an instruction set, with the checks of the vector extension. -/
def decodeTables (checks : MmvecChecks) : DecodeTables where
  root32 := S.root32
  rootEe := S.rootEe
  immextLetter := S.immextLetter
  mmvecCheck := checks.check
  root32_fresh ext w i hi := by
    obtain ⟨r, hr, rfl⟩ := Option.map_eq_some_iff.1 hi
    exact r.decodeOp_fresh _ ext w (S.whole_of_mem (matches_of_lookup32 hr).1).1
  rootEe_fresh ext w p hp := by
    obtain ⟨c, -, rfl⟩ := Option.map_eq_some_iff.1 hp
    refine ⟨fun i hi => ?_, fun i hi => ?_⟩
    · obtain ⟨r, hr, rfl⟩ := Option.map_eq_some_iff.1 hi
      exact r.decodeOp_fresh _ ext _ (S.subinsns_half c.2 r ((S.subinsns c.2).lookup_iff.1 hr).1).1
    · obtain ⟨r, hr, rfl⟩ := Option.map_eq_some_iff.1 hi
      exact r.decodeOp_fresh _ false _ (S.subinsns_half c.1 r ((S.subinsns c.1).lookup_iff.1 hr).1).1
  mmvecCheck_same := checks.same

end Iset

end Hex
