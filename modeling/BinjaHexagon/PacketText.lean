import BinjaHexagon.PacketLines
import BinjaHexagon.TextRoundTrip
/-!
# PacketText — the text of a packet

`FillBnInstructionTextTokens` prints one word a line, the two halves of a duplex on one.  The braces stand on the first
and the last line, and what the packet ends behind the last.  The text of an instruction is a parameter;
`opcodeTextptr` is what the generator of `opcode_textptr` makes it, and with it a line prints the instruction strings.
-/
namespace Hex

open Grammar (Piece strip)

/-- The tokens' texts, for the packet's address, the packet and one of its instructions. -/
abbrev TextFunc := Nat → Packet → Insn → Option (List String)

/-- `switch (pkt.insn[last_insn + 1].opcode)` -/
def endloopText : Tag → List String
  | .j2Endloop0 => ["  :endloop0"]
  | .j2Endloop1 => ["  :endloop1"]
  | .j2Endloop01 => ["  :endloop01"]
  | _ => []

/-- `pkt_has_endloop` -/
def hasEndloop (l : List Insn) : Bool := l.any fun i => !i.part1 && i.endsLoop

/-- What stands behind the instruction, or the duplex, whose last place is `insnNum`. -/
def closingText (pkt : Packet) (insnNum : Nat) : List String :=
  if (insnNum : Int) = getLastInsn pkt then
    " \x7d" :: if hasEndloop pkt.insn then
      (pkt.insn[(getLastInsn pkt + 1).toNat]?.map fun i => endloopText i.opcode.tag).getD []
    else []
  else ["  "]

inductive TextResult where
  | invalid
  | tokens (len : Nat) (l : List String)
  deriving DecidableEq

/-- `FillBnInstructionTextTokens`; with no outcome where the `CHECK` fails. -/
def fillBnInstructionTextTokens (text : TextFunc) (input : InsnInfo) : Option TextResult := do
  if input.insnAddr % 4 ≠ 0 then return .invalid
  let insn ← input.pkt.insn[input.insnNum]?
  let brace := if input.insnNum = 0 then "\x7b " else "  "
  match text input.pc input.pkt insn with
  | none => return .invalid
  | some tokens =>
    if insn.isSubInsn then
      let next ← input.pkt.insn[input.insnNum + 1]?
      match text input.pc input.pkt next with
      | none => return .invalid
      | some tokens' =>
        return .tokens 4 (brace :: (tokens ++ "; " :: (tokens' ++ closingText input.pkt (input.insnNum + 1))))
    else return .tokens 4 (brace :: (tokens ++ closingText input.pkt input.insnNum))

/-- The loops a packet of `n` words ends, from the parse bits. -/
def loopSuffix (words : List (BitVec 32)) (n : Nat) : List String :=
  let loop0 := decide (2 ≤ n) && words[0]?.any parsebitsIsLoopend
  let loop1 := decide (3 ≤ n) && words[1]?.any parsebitsIsLoopend
  if loop0 && loop1 then ["  :endloop01"]
  else if loop1 then ["  :endloop1"]
  else if loop0 then ["  :endloop0"]
  else []

/-- Line `j` of `n`, with the instructions `u`. -/
def lineText (text : TextFunc) (start : Nat) (p : Packet) (words : List (BitVec 32)) (n j : Nat) (u : List Insn) :
    List String :=
  (if j = 0 then "\x7b " else "  ") :: (["; "].intercalate (u.map fun i => (text start p i).getD []) ++
    if j + 1 = n then " \x7d" :: loopSuffix words n else ["  "])

/-- The text of a packet: every instruction but the endloop once, in the order of the words. -/
structure TextWellFormed (text : TextFunc) (T : DecodeTables) (words : List (BitVec 32)) (db : PacketDb) (start : Nat)
    (p : Packet) (us : List (List Insn)) : Prop where
  length : us.length = p.encodPktSizeInBytes / 4
  lines : ∀ u ∈ us, IsLine u
  once : us.flatten = p.insn.filter fun i => !i.endsLoop
  order : us.flatten = wordInsns T words
  text : ∀ (j : Nat) (u : List Insn), us[j]? = some u → ∃ i, lookup db (start + 4 * j) = some i ∧
    fillBnInstructionTextTokens text i = some (.tokens 4 (lineText text start p words us.length j u))

section Text

variable {T : DecodeTables} {words : List (BitVec 32)} {p : Packet} {core c : List Insn} {db : PacketDb} {start : Nat}

theorem loopSuffix_eq (words : List (BitVec 32)) (n : Nat) :
    loopSuffix words n = ((endloopInsn words n).map fun e => endloopText e.opcode.tag).getD [] := by
  unfold loopSuffix endloopInsn
  rcases Nat.lt_trichotomy n 2 with hn | rfl | hn
  · rw [if_neg (show ¬ n = 2 by omega), if_neg (show ¬ 3 ≤ n by omega), decide_eq_false (show ¬ 2 ≤ n by omega),
      decide_eq_false (show ¬ 3 ≤ n by omega)]
    rfl
  · cases words[0]?.any parsebitsIsLoopend <;> rfl
  · rw [if_neg (show ¬ n = 2 by omega), if_pos (show 3 ≤ n by omega), decide_eq_true (show 2 ≤ n by omega),
      decide_eq_true (show 3 ≤ n by omega)]
    cases words[0]?.any parsebitsIsLoopend <;> cases words[1]?.any parsebitsIsLoopend <;> rfl

/-- **What is printed behind the brace is what the parse bits ask for.** -/
theorem PacketOrder.closing (h : PacketOrder T words p core c) {k : Nat} (hk : k < core.length) :
    closingText p k = if k + 1 = core.length then " \x7d" :: loopSuffix words (p.encodPktSizeInBytes / 4)
        else ["  "] := by
  have hlast : (k : Int) = getLastInsn p ↔ k + 1 = core.length := by
    rw [h.lastInsn]
    omega
  have hnext : (getLastInsn p + 1).toNat = core.length := by
    rw [h.lastInsn]
    omega
  have hget : p.insn[core.length]? = c.head? := by
    rw [h.insn, List.getElem?_append_right (Nat.le_refl _), Nat.sub_self, List.head?_eq_getElem?]
  have hcore : hasEndloop core = false := by
    refine List.any_eq_false.2 fun i hi => ?_
    rw [h.arranged.noLoop i hi, Bool.and_false]
    exact Bool.false_ne_true
  have hend := h.endloop
  unfold closingText
  simp only [hlast, hnext, hget, loopSuffix_eq]
  split
  · congr 1
    rcases h.arranged.loop with rfl | ⟨e, rfl, he⟩
    · have hnone : endloopInsn words (p.encodPktSizeInBytes / 4) = none := by
        cases hr : endloopInsn words (p.encodPktSizeInBytes / 4) with
        | none => rfl
        | some e => rw [hr] at hend; cases hend
      rw [h.insn, List.append_nil, hcore, hnone]
      rfl
    · have hpart : e.part1 = false := h.arranged.part1 e (by simp)
      have hany : hasEndloop p.insn = true := by
        rw [h.insn]
        exact List.any_eq_true.2 ⟨e, by simp, by rw [hpart, he]; rfl⟩
      cases hr : endloopInsn words (p.encodPktSizeInBytes / 4) with
      | none => rw [hr] at hend; cases hend
      | some e' =>
        rw [hr] at hend
        have hop : e.opcode = e'.opcode := (List.cons.inj hend).1
        rw [hany, if_pos rfl, List.head?_cons, Option.map_some, Option.map_some, hop]
  · rfl

/-- A line is printed as its instructions, between the braces that belong to it. -/
theorem PacketOrder.text_line (h : PacketOrder T words p core c) (text : TextFunc)
    (htext : ∀ i ∈ p.insn, i.endsLoop = false → (text start p i).isSome = true) (halign : start % 4 = 0)
    {pre post : List (List Insn)} {u : List Insn} (hl : LineAt core pre u post)
    (hsize : p.encodPktSizeInBytes / 4 = pre.length + 1 + post.length) :
    fillBnInstructionTextTokens text ⟨start, p, pre.flatten.length, start + 4 * pre.length⟩ =
      some (.tokens 4 (lineText text start p words (p.encodPktSizeInBytes / 4) pre.length u)) := by
  have hlen := hl.length
  have hsome : ∀ i ∈ core, ∃ t, text start p i = some t := fun i hi => by
    refine Option.isSome_iff_exists.1 (htext i ?_ (h.arranged.noLoop i hi))
    rw [h.insn]
    exact List.mem_append_left _ hi
  have hfirst : (if pre.flatten.length = 0 then "\x7b " else "  ") = if pre.length = 0 then "\x7b " else "  " := by
    simp only [hl.first, List.length_eq_zero_iff]
  have hclose : ∀ k, k + 1 = pre.flatten.length + u.length → closingText p k =
      if pre.length + 1 = p.encodPktSizeInBytes / 4 then " \x7d" :: loopSuffix words (p.encodPktSizeInBytes / 4)
      else ["  "] := fun k hk => by
    have hu : 0 < u.length := by rcases hl.line with ⟨i, rfl, -⟩ | ⟨b, a, rfl, -⟩ <;> simp
    have hiff : k + 1 = core.length ↔ pre.length + 1 = p.encodPktSizeInBytes / 4 := by
      have hlast : post.flatten.length = 0 ↔ post.length = 0 := by rw [hl.last, List.length_eq_zero_iff]
      omega
    rw [h.closing (by omega)]
    simp only [hiff]
  unfold fillBnInstructionTextTokens lineText
  dsimp only
  rw [if_neg (by omega), hfirst]
  rcases hl.line with ⟨i, rfl, hi⟩ | ⟨b, a, rfl, hb, ha⟩
  · obtain ⟨t, ht⟩ := hsome i (by rw [hl.core_eq]; simp)
    have hget : p.insn[pre.flatten.length]? = some i := h.getElem?_line hl (k := 0) (by simp)
    have hcl := hclose pre.flatten.length rfl
    generalize pre.flatten.length = k at hget hcl
    simp [hget, ht, hi, hcl]
  · obtain ⟨t, ht⟩ := hsome b (by rw [hl.core_eq]; simp)
    obtain ⟨t', ht'⟩ := hsome a (by rw [hl.core_eq]; simp)
    have hget : p.insn[pre.flatten.length]? = some b := h.getElem?_line hl (k := 0) (by simp)
    have hnext : p.insn[pre.flatten.length + 1]? = some a := h.getElem?_line hl (k := 1) (by simp)
    have hcl := hclose (pre.flatten.length + 1) rfl
    generalize pre.flatten.length = k at hget hnext hcl
    simp [hget, hnext, ht, ht', hb, hcl]

/-- **A packet's text is well formed exactly when its instructions are in the order of the words.** -/
theorem text_iff (T : DecodeTables) (words : List (BitVec 32)) (p : Packet)
    (h : (decodePacket T words).outcome = .packet p) (hw : InArray (decodePacket T words).writes) (db : PacketDb)
    (start : Nat) (hdb : StoredAt db start p) (halign : start % 4 = 0) (hrows : ∀ i ∈ p.insn, i.opcode.VectorRow)
    (text : TextFunc) (htext : ∀ i ∈ p.insn, i.endsLoop = false → (text start p i).isSome = true) :
    (∃ us, TextWellFormed text T words db start p us) ↔
      (p.insn.any (·.attrib .extension) = true → VectorsInPlace (wordInsns T words)) := by
  obtain ⟨core, c, hord⟩ := decodePacket_order h hw
  have hp := hord.paired hrows
  have hfilter : p.insn.filter (fun i => !i.endsLoop) = core := by
    rw [hord.insn, hord.arranged.filter_noLoop]
  rw [← hord.order hrows]
  constructor
  · rintro ⟨us, hus⟩
    have horder := hus.order
    rwa [hus.once, hfilter] at horder
  · intro horder
    have hlen : (insnLines core).length = p.encodPktSizeInBytes / 4 := by
      rw [← hord.bytes, hp.bytes, Nat.mul_div_cancel_left _ (by decide)]
    refine ⟨insnLines core, hlen, hp.isLine, by rw [hfilter, flatten_insnLines], by
      rw [flatten_insnLines]; exact horder, fun j u hj => ?_⟩
    obtain ⟨hjlt, rfl⟩ := List.getElem?_eq_some_iff.1 hj
    obtain ⟨pre, v, post, hl, rfl, hsize⟩ := hord.exists_line hp (hlen ▸ hjlt)
    have hv : (insnLines core)[pre.length] = v := by
      have hcons : (insnLines core)[pre.length]? = some v := by
        rw [hl.eq, List.getElem?_append_right (Nat.le_refl _), Nat.sub_self]
        rfl
      rw [List.getElem?_eq_getElem hjlt] at hcons
      exact Option.some.inj hcons
    rw [hv, hlen]
    exact ⟨_, hord.lookup_line hdb hl, hord.text_line text htext halign hl hsize⟩

end Text

/-- An entry of `opcode_textptr`: what the transformer is made for, and the tree of the opcode's instruction string. -/
structure TextEntry where
  table : TextTable
  tree : Grammar.Exp

/-- `opcode_textptr`; where `GetRegisterName` ends the process there is no text. -/
def opcodeTextptr (rows : Tag → Option TextEntry) : TextFunc := fun pc _ i => do
  let r ← rows i.opcode.tag
  let toks ← r.table.processInsnTokens r.tree
  let texts ← toks.mapM (TextTok.shown (BitVec.ofNat 64 pc) i)
  some (texts.map String.ofList)

/-- Token texts put together, without blanks. -/
def stripTexts (l : List String) : List Char := strip (l.flatMap String.toList)

/-- The instruction string with its placeholders replaced, without blanks. -/
def shownInsn (rows : Tag → Option TextEntry) (pc : Nat) (i : Insn) : Option (List Char) :=
  (rows i.opcode.tag).bind fun r => (r.table.shownAll (BitVec.ofNat 64 pc) i 0 r.tree.pieces).map strip

/-- Line `j` of `n`, with the instructions `u`, without blanks. -/
def shownLine (rows : Tag → Option TextEntry) (start : Nat) (words : List (BitVec 32)) (n j : Nat) (u : List Insn) :
    List Char :=
  (if j = 0 then "\x7b".toList else []) ++ [';'].intercalate (u.map fun i => (shownInsn rows start i).getD []) ++
    if j + 1 = n then "\x7d".toList ++ stripTexts (loopSuffix words n) else []

section Generated

variable {rows : Tag → Option TextEntry}

theorem showToks_eq (pc : BitVec 64) (i : Insn) : ∀ toks : List TextTok,
    showToks pc i toks = (toks.mapM (TextTok.shown pc i)).map List.flatten
  | [] => rfl
  | t :: toks => by
    rw [showToks, showToks_eq pc i toks, List.mapM_cons]
    cases t.shown pc i <;> cases toks.mapM (TextTok.shown pc i) <;> rfl

@[simp] theorem stripTexts_cons (w : String) (l : List String) :
    stripTexts (w :: l) = strip w.toList ++ stripTexts l := by
  rw [stripTexts, List.flatMap_cons, Grammar.strip_append, stripTexts]

@[simp] theorem stripTexts_append (l l' : List String) :
    stripTexts (l ++ l') = stripTexts l ++ stripTexts l' := by
  rw [stripTexts, List.flatMap_append, Grammar.strip_append, stripTexts, stripTexts]

theorem stripTexts_ofList (texts : List (List Char)) : stripTexts (texts.map String.ofList) = strip texts.flatten := by
  induction texts with
  | nil => rfl
  | cons w texts ih => rw [List.map_cons, stripTexts_cons, ih, String.toList_ofList, List.flatten_cons,
      Grammar.strip_append]

/-- **The generated function prints the instruction string.** -/
theorem opcodeTextptr_strip {r : TextEntry} {i : Insn} (hr : rows i.opcode.tag = some r)
    (hown : ∀ x, Piece.reg x ∈ r.tree.pieces → r.table.Owns x)
    (htoks : (r.table.processInsnTokens r.tree).isSome = true) (pc : Nat) (p : Packet) :
    (opcodeTextptr rows pc p i).map stripTexts = shownInsn rows pc i := by
  obtain ⟨toks, htoks⟩ := Option.isSome_iff_exists.1 htoks
  have hshown : shownInsn rows pc i = (showToks (BitVec.ofNat 64 pc) i toks).map strip := by
    rw [strip_showToks htoks hown, shownInsn, hr]
    rfl
  rw [hshown, showToks_eq, opcodeTextptr, hr]
  simp only [Option.bind_eq_bind, Option.bind_some, htoks]
  cases toks.mapM (TextTok.shown (BitVec.ofNat 64 pc) i) with
  | none => rfl
  | some texts => exact congrArg some (stripTexts_ofList texts)

/-- The rows have the instruction: its string has a tree that the transformer accepts, with operands of its own. -/
def Tokenized (rows : Tag → Option TextEntry) (i : Insn) : Prop := ∃ r, rows i.opcode.tag = some r ∧
  (∀ x, Piece.reg x ∈ r.tree.pieces → r.table.Owns x) ∧ (r.table.processInsnTokens r.tree).isSome = true

/-- **Every line prints the strings of its word's instructions**, between the braces that belong to it. -/
theorem TextWellFormed.printed {T : DecodeTables} {words : List (BitVec 32)} {db : PacketDb} {start : Nat} {p : Packet}
    {us : List (List Insn)} (h : TextWellFormed (opcodeTextptr rows) T words db start p us)
    (hrows : ∀ i ∈ us.flatten, Tokenized rows i) (j : Nat) (u : List Insn) (hj : us[j]? = some u) :
    ∃ i l, lookup db (start + 4 * j) = some i ∧
      fillBnInstructionTextTokens (opcodeTextptr rows) i = some (.tokens 4 l) ∧
      stripTexts l = shownLine rows start words us.length j u := by
  obtain ⟨i, hi, hl⟩ := h.text j u hj
  refine ⟨i, _, hi, hl, ?_⟩
  have hu : u ∈ us := List.mem_of_getElem? hj
  have htext : ∀ k ∈ u, stripTexts ((opcodeTextptr rows start p k).getD []) = (shownInsn rows start k).getD [] :=
    fun k hk => by
      obtain ⟨r, hr, hown, htoks⟩ := hrows k (List.mem_flatten.2 ⟨u, hu, hk⟩)
      rw [← opcodeTextptr_strip hr hown htoks start p]
      cases opcodeTextptr rows start p k <;> rfl
  have hmid : stripTexts (["; "].intercalate (u.map fun k => (opcodeTextptr rows start p k).getD [])) =
      [';'].intercalate (u.map fun k => (shownInsn rows start k).getD []) := by
    rcases h.lines u hu with ⟨k, rfl, -⟩ | ⟨b, a, rfl, -⟩
    · simpa [List.intercalate] using htext k List.mem_cons_self
    · have hb := htext b List.mem_cons_self
      have ha := htext a (List.mem_cons_of_mem _ List.mem_cons_self)
      simp [List.intercalate, hb, ha]
      rfl
  unfold lineText shownLine
  rw [stripTexts_cons, stripTexts_append, hmid, ← List.append_assoc]
  congr 1
  · congr 1
    split <;> rfl
  · split
    · exact stripTexts_cons _ _
    · rfl

end Generated

def vectorText : TextFunc := fun _ _ i => some [match i.opcode.tag with
  | .other 24 => "v1.w=vadd(v0.w,v2.w)"
  | .other 25 => "v0.cur=vmem(r0+#0)"
  | _ => "nop"]

/-- `{ v0.cur=vmem(r0+#0)` and `v1.w=vadd(v0.w,v2.w) }` -/
theorem text_iff_vload : (decodePacket vectorTables [0x28004020, 0x1c42c001]).outcome = .packet vloadPacket ∧
    ∃ us, TextWellFormed vectorText vectorTables [0x28004020, 0x1c42c001] (oneAt 0x1000 vloadPacket) 0x1000 vloadPacket
      us :=
  ⟨rfl, (text_iff vectorTables [0x28004020, 0x1c42c001] vloadPacket rfl (by decide +kernel) _ 0x1000 storedAt_vload
    (by decide) vectorRow_vload vectorText fun _ _ _ => rfl).2 fun _ => vectorsInPlace_vload⟩

/-- The first line printed is the second word. -/
theorem vector_load_printed_first :
    (decodePacket vectorTables [0x1c424001, 0x2800c020]).outcome = .packet vloadPacket ∧
    (lookup (oneAt 0x1000 vloadPacket) 0x1000).bind (fillBnInstructionTextTokens vectorText) =
      some (.tokens 4 ["\x7b ", "v0.cur=vmem(r0+#0)", "  "]) ∧
    ¬ ∃ us, TextWellFormed vectorText vectorTables [0x1c424001, 0x2800c020] (oneAt 0x1000 vloadPacket) 0x1000
      vloadPacket us := by
  refine ⟨rfl, by decide +kernel, ?_⟩
  rintro ⟨us, hus⟩
  have horder := hus.order
  rw [hus.once] at horder
  exact absurd horder (by decide +kernel)

end Hex
