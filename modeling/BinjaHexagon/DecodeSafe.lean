import BinjaHexagon.DecodeWords
/-!
# DecodeSafe — `DecodePacket` in its bounds

Nothing limits the loop over the words: only what the words themselves hold keeps it inside `pkt->insn`.
-/
namespace Hex

/-- `INSTRUCTIONS_MAX` places are there. -/
def InArray (places : List Nat) : Prop := ∀ p ∈ places, p < instructionsMax

/-- What `GetMaxInstructionLength` promises. -/
def maxInstructionLength : Nat := 16

/-- The words up to the first end of a packet, or the first that is no instruction, take no more places than there are:
one for each instruction, another one behind an extender, and one for the endloop that is asked for. -/
def WordsFit (T : DecodeTables) (loop : Bool) : Bool → Nat → List (BitVec 32) → Prop
  | _, _, [] => True
  | ext, n, w :: ws => InArray (T.decodeInsns ext n w).1 ∧
    ∀ i l, (T.decodeInsns ext n w).2 = some (i :: l) → (i.isExtender = true → n + 1 < instructionsMax) ∧
      if isPacketEnd w then loop = true → n + (l.length + 1) < instructionsMax
      else WordsFit T loop i.isExtender (n + (l.length + 1)) ws

/-- The parse bits of the first two words ask for an endloop. -/
def asksEndloop (words : List (BitVec 32)) : Bool :=
  words[0]?.any parsebitsIsLoopend || words[1]?.any parsebitsIsLoopend

section Writes

variable {T : DecodeTables}

theorem inArray_append {a b : List Nat} : InArray (a ++ b) ↔ InArray a ∧ InArray b := List.forall_mem_append

theorem decodeInsns_cons {ext : Bool} {n : Nat} {w : BitVec 32} {writes : List Nat} {is : List Insn}
    (h : T.decodeInsns ext n w = (writes, some is)) :
    ∃ i l, is = i :: l ∧ ∀ k < l.length + 1, n + k ∈ writes := by
  rcases decodeInsns_some h with ⟨i, rfl, -, rfl⟩ | ⟨-, b, a, rfl, -, -, rfl⟩
  · refine ⟨i, [], rfl, fun k hk => ?_⟩
    obtain rfl : k = 0 := by simpa using hk
    exact List.mem_cons_self
  · refine ⟨b, [a], rfl, fun k hk => ?_⟩
    rcases k with _ | _ | k
    · exact List.mem_cons_self
    · exact List.mem_cons_of_mem _ List.mem_cons_self
    · exact absurd hk (by simp)

/-- Every instruction collected has had its place written. -/
theorem place_mem_gather : ∀ (words : List (BitVec 32)) (ext : Bool) (n k : Nat),
    k < (gather T ext n words).insn.length → n + k ∈ (gather T ext n words).writes
  | [], _, _, k, hk => absurd hk (Nat.not_lt_zero k)
  | w :: ws, ext, n, k, hk => by
    rcases hd : T.decodeInsns ext n w with ⟨writes, _ | is⟩
    · rw [gather_failed hd] at hk
      exact absurd hk (Nat.not_lt_zero k)
    · obtain ⟨i, l, rfl, hl⟩ := decodeInsns_cons hd
      cases hw : isPacketEnd w with
      | true =>
        rw [gather_end hd hw] at hk ⊢
        exact List.mem_append_left _ (hl k hk)
      | false =>
        rw [gather_next hd hw] at hk ⊢
        simp only [List.length_append, List.length_cons] at hk
        by_cases hkl : k < l.length + 1
        · exact List.mem_append_left _ (List.mem_append_left _ (hl k hkl))
        · have := place_mem_gather ws i.isExtender (n + (l.length + 1)) (k - (l.length + 1)) (by omega)
          refine List.mem_append_right _ ?_
          rwa [show n + (l.length + 1) + (k - (l.length + 1)) = n + k by omega] at this

theorem extenderWrites_append (b : List Insn) : ∀ (a : List Insn) (n : Nat),
    extenderWrites n (a ++ b) = extenderWrites n a ++ extenderWrites (n + a.length) b
  | [], _ => rfl
  | i :: a, n => by
    rw [List.cons_append, extenderWrites, extenderWrites, extenderWrites_append b a, List.length_cons,
      show n + 1 + a.length = n + (a.length + 1) by omega]
    split <;> rfl

/-- An extender has marked the place behind it when it was read. -/
theorem extenderWrites_subset : ∀ (words : List (BitVec 32)) (ext : Bool) (n : Nat),
    extenderWrites n (gather T ext n words).insn ⊆ (gather T ext n words).writes
  | [], _, _ => List.Subset.refl _
  | w :: ws, ext, n => by
    rcases hd : T.decodeInsns ext n w with ⟨writes, _ | is⟩
    · rw [gather_failed hd]
      exact List.nil_subset _
    · have hsub : ∀ i l, is = i :: l → ∀ m, extenderWrites m l = [] := by
        intro i l hil m
        rcases decodeInsns_some hd with ⟨j, hj, -⟩ | ⟨-, b, a, hba, -, ha, -⟩
        · rw [hil] at hj
          obtain ⟨-, rfl⟩ := List.cons.inj hj
          rfl
        · rw [hil] at hba
          obtain ⟨-, rfl⟩ := List.cons.inj hba
          have : a.isExtender = false := by
            cases he : a.isExtender
            · rfl
            · exact absurd ha.isSubInsn (by rw [Insn.isSubInsn, Insn.extender_lacks he (by decide)]; decide)
          rw [extenderWrites, this]
          rfl
      obtain ⟨i, l, rfl, -⟩ := decodeInsns_cons hd
      have hhead : extenderWrites n (i :: l) ⊆ writes ++ if i.isExtender then [n + 1] else [] := by
        rw [extenderWrites, hsub i l rfl]
        split
        · rename_i he
          exact List.subset_append_right _ _
        · exact List.nil_subset _
      cases hw : isPacketEnd w with
      | true =>
        rw [gather_end hd hw]
        exact hhead
      | false =>
        rw [gather_next hd hw]
        simp only
        rw [extenderWrites_append, List.length_cons]
        exact List.append_subset.2 ⟨fun p hp => List.mem_append_left _ (hhead hp),
          fun p hp => List.mem_append_right _ (extenderWrites_subset ws _ _ hp)⟩

/-- **The loop stays in the array exactly when the words fit it.** -/
theorem wordsFit_iff {loop : Bool} : ∀ {words : List (BitVec 32)} {ext : Bool} {n : Nat},
    InArray (gather T ext n words).writes ∧ ((gather T ext n words).stop = .ended → loop = true →
      n + (gather T ext n words).insn.length < instructionsMax) ↔ WordsFit T loop ext n words
  | [], ext, n => ⟨fun _ => trivial, fun _ => ⟨nofun, nofun⟩⟩
  | w :: ws, ext, n => by
    rcases hd : T.decodeInsns ext n w with ⟨writes, _ | is⟩
    · rw [gather_failed hd, WordsFit, hd]
      exact ⟨fun h => ⟨h.1, nofun⟩, fun h => ⟨h.1, nofun⟩⟩
    · obtain ⟨i, l, rfl, -⟩ := decodeInsns_cons hd
      have hmark : InArray (if i.isExtender then [n + 1] else []) ↔
          (i.isExtender = true → n + 1 < instructionsMax) := by
        cases i.isExtender <;> simp [InArray]
      rw [WordsFit, hd]
      simp only [Option.some.injEq, List.cons.injEq, and_imp]
      cases hw : isPacketEnd w with
      | true =>
        rw [gather_end hd hw]
        simp only [inArray_append, hmark, forall_const, if_true, List.length_cons]
        constructor
        · rintro ⟨⟨h₁, h₂⟩, h₃⟩
          refine ⟨h₁, ?_⟩
          rintro _ _ rfl rfl
          exact ⟨h₂, h₃⟩
        · rintro ⟨h₁, h₂⟩
          have h₂ := h₂ i l rfl rfl
          exact ⟨⟨h₁, h₂.1⟩, h₂.2⟩
      | false =>
        rw [gather_next hd hw]
        have ih := @wordsFit_iff loop ws i.isExtender (n + (l.length + 1))
        simp only [inArray_append, hmark, Bool.false_eq_true, if_false, List.length_append, List.length_cons,
          ← Nat.add_assoc n] at ih ⊢
        constructor
        · rintro ⟨⟨⟨h₁, h₂⟩, h₃⟩, h₄⟩
          refine ⟨h₁, ?_⟩
          rintro _ _ rfl rfl
          exact ⟨h₂, ih.1 ⟨h₃, h₄⟩⟩
        · rintro ⟨h₁, h₂⟩
          have h₂ := h₂ i l rfl rfl
          have h₃ := ih.2 h₂.2
          exact ⟨⟨⟨h₁, h₂.1⟩, h₃.1⟩, h₃.2⟩

end Writes

/-- What every packet that is returned is to be. -/
structure PossiblePacket (words : List (BitVec 32)) (p : Packet) : Prop where
  insns : 1 ≤ p.insn.length ∧ p.insn.length ≤ instructionsMax
  size_pos : 0 < p.encodPktSizeInBytes
  size_words : p.encodPktSizeInBytes % 4 = 0
  size_span : p.encodPktSizeInBytes ≤ 4 * words.length
  size_max : p.encodPktSizeInBytes ≤ maxInstructionLength
  ends : words[p.encodPktSizeInBytes / 4 - 1]?.any isPacketEnd = true
  before : ∀ i < p.encodPktSizeInBytes / 4 - 1, words[i]?.any isPacketEnd = false
  extended : ∀ k i, p.insn[k]? = some i → i.isExtender = true → ∃ j, p.insn[k + 1]? = some j ∧ j.IsExtended

structure DecodeSafe (T : DecodeTables) (words : List (BitVec 32)) : Prop where
  reads : ∀ i ∈ (decodePacket T words).reads, i < words.length
  writes : InArray (decodePacket T words).writes
  packet : ∀ p, (decodePacket T words).outcome = .packet p → PossiblePacket words p

/-- The words at the start of the span fit the array; and where they are a packet that no check rejects, they are at
most four, and the last is no extender. -/
structure SafeWords (T : DecodeTables) (words : List (BitVec 32)) : Prop where
  fit : WordsFit T (asksEndloop words) false 0 (words.take (maxWords words.length))
  packet : ∀ pre last rest g, words = pre ++ last :: rest → pre.length < maxWords words.length →
    PacketWords T pre last g → (finishPacket T (g.encoded words)).isSome = true →
      pre.length < 4 ∧ ∀ i ∈ (g.encoded words).getLast?, i.isExtender = false

section Safe

variable {T : DecodeTables} {words : List (BitVec 32)}

theorem maxWords_le (n : Nat) : maxWords n ≤ n := by
  unfold maxWords
  rw [BitVec.toInt_eq_toNat_cond, BitVec.toNat_ofNat]
  have := Nat.mod_le n (2 ^ 32)
  split <;> omega

theorem decodePacket_reads : ∀ i ∈ (decodePacket T words).reads, i < words.length := by
  have hread := gather_read_le (T := T) (words.take (maxWords words.length)) false 0
  rw [List.length_take] at hread
  have hrange : ∀ i ∈ List.range (gather T false 0 (words.take (maxWords words.length))).read, i < words.length :=
    fun i hi => by have := List.mem_range.1 hi; omega
  intro i hi
  unfold decodePacket at hi
  simp only at hi
  split at hi
  · exact hrange i hi
  · exact hrange i hi
  · rcases List.mem_append.1 hi with hi | hi
    · exact hrange i hi
    · split at hi
      · obtain rfl := List.mem_singleton.1 hi
        omega
      · split at hi
        · simp only [List.mem_cons, List.not_mem_nil, or_false] at hi
          omega
        · cases hi

/-- The places written are those of the loop, and the one of the endloop. -/
theorem inArray_decodePacket : InArray (decodePacket T words).writes ↔
    InArray (gather T false 0 (words.take (maxWords words.length))).writes ∧
      ((gather T false 0 (words.take (maxWords words.length))).stop = .ended →
        (endloopInsn words (gather T false 0 (words.take (maxWords words.length))).read).isSome = true →
          (gather T false 0 (words.take (maxWords words.length))).insn.length < instructionsMax) := by
  have hplace := place_mem_gather (T := T) (words.take (maxWords words.length)) false 0
  have hext := extenderWrites_subset (T := T) (words.take (maxWords words.length)) false 0
  unfold decodePacket
  generalize gather T false 0 (words.take (maxWords words.length)) = g at *
  obtain ⟨insn, writes, read, stop⟩ := g
  simp only at hplace hext ⊢
  cases stop with
  | failed => exact ⟨fun h => ⟨h, nofun⟩, fun h => h.1⟩
  | insufficient => exact ⟨fun h => ⟨h, nofun⟩, fun h => h.1⟩
  | ended =>
    simp only [inArray_append, forall_const]
    constructor
    · rintro ⟨⟨⟨hg, hloop⟩, -⟩, -⟩
      refine ⟨hg, fun hsome => ?_⟩
      obtain ⟨e, he⟩ := Option.isSome_iff_exists.1 hsome
      rw [he] at hloop
      exact hloop _ List.mem_cons_self
    · rintro ⟨hg, hloop⟩
      have hlen : ∀ k < insn.length, k < instructionsMax := fun k hk => by
        have := hg _ (hplace k hk)
        omega
      cases he : endloopInsn words read with
      | none =>
        simp only [Option.toList_none, List.append_nil, List.map_nil]
        exact ⟨⟨⟨hg, nofun⟩, fun p hp => hg p (hext hp)⟩, fun p hp => hlen p (List.mem_range.1 hp)⟩
      | some e =>
        have hloop := hloop (by rw [he]; rfl)
        rw [Option.toList_some]
        refine ⟨⟨⟨hg, ?_⟩, ?_⟩, fun p hp => ?_⟩
        · intro p hp
          obtain rfl := List.mem_singleton.1 hp
          exact hloop
        · rw [extenderWrites_append, inArray_append, extenderWrites, (endloopInsn_some he).2.1]
          exact ⟨fun p hp => hg p (hext hp), nofun⟩
        · have hp := List.mem_range.1 hp
          rw [List.length_append, List.length_singleton] at hp
          omega

theorem asksEndloop_of_isSome {read : Nat} (h : (endloopInsn words read).isSome = true) : asksEndloop words = true := by
  unfold endloopInsn at h
  unfold asksEndloop
  simp only at h
  cases h₀ : words[0]?.any parsebitsIsLoopend <;> cases h₁ : words[1]?.any parsebitsIsLoopend <;>
    simp [h₀, h₁] at h ⊢

theorem isSome_of_asksEndloop {read : Nat} (hread : 3 ≤ read) (h : asksEndloop words = true) :
    (endloopInsn words read).isSome = true := by
  unfold asksEndloop at h
  unfold endloopInsn
  simp only
  rw [if_neg (by omega), if_pos hread]
  cases h₀ : words[0]?.any parsebitsIsLoopend <;> cases h₁ : words[1]?.any parsebitsIsLoopend <;>
    simp [h₀, h₁] at h ⊢

/-- **The array's bounds are kept exactly when the words fit.** -/
theorem inArray_iff : InArray (decodePacket T words).writes ↔
    WordsFit T (asksEndloop words) false 0 (words.take (maxWords words.length)) := by
  rw [inArray_decodePacket, ← wordsFit_iff, Nat.zero_add]
  refine and_congr_right fun _ => forall_congr' fun hstop => ?_
  obtain ⟨pre, last, rest, -, hc, -⟩ := gather_ended hstop
  refine ⟨fun h hask => ?_, fun h hsome => h (asksEndloop_of_isSome hsome)⟩
  by_cases hread : 3 ≤ (gather T false 0 (words.take (maxWords words.length))).read
  · exact h (isSome_of_asksEndloop hread hask)
  · rcases hc.length with hl | ⟨-, hl⟩ <;> rw [hl, instructionsMax] <;> omega

variable {pre rest : List (BitVec 32)} {last : BitVec 32} {g : Gathered} {p : Packet}

theorem PacketWords.encoded_facts (h : PacketWords T pre last g) (words : List (BitVec 32)) :
    Marked false (g.encoded words) ∧ (∀ i ∈ g.encoded words, i.part1 = false) ∧
      (g.encoded words).isEmpty = false := by
  have hne : g.insn ≠ [] := by
    intro h0
    have := h.collected.length
    rw [h0, h.collected.read] at this
    simp at this
  unfold Gathered.encoded
  refine ⟨?_, ?_, by cases hg : g.insn with | nil => exact absurd hg hne | cons i l => rfl⟩
  · cases he : endloopInsn words g.read with
    | none =>
      rw [Option.toList_none, List.append_nil]
      exact h.collected.marked
    | some e => exact h.collected.marked.append (endloopInsn_some he).2.2.2.1
  · intro i hi
    rcases List.mem_append.1 hi with hi | hi
    · exact h.collected.part1 i hi
    · exact (endloopInsn_some (Option.mem_toList.1 hi)).2.2.1

/-- The shape of a packet that is returned, and its length; an extender left over at the end makes it `bare`. -/
theorem PacketWords.arranged (h : PacketWords T pre last g) (words : List (BitVec 32)) {bare : Bool} {l : List Insn}
    (hbare : bare = true ∨ ∀ i ∈ (g.encoded words).getLast?, i.isExtender = false)
    (hl : finishPacket T (g.encoded words) = some l) :
    ∃ core c l₁ l₂, l = core ++ c ∧ Arranged bare core c ∧ applyExtenders T none (g.encoded words) = some l₁ ∧
      List.Forall₂ Insn.SameKind (g.encoded words) l₁ ∧ List.Forall₂ Insn.SameButRegno l₁ l₂ ∧ l.Perm l₂ :=
  finishPacket_arranged (h.encoded_facts words).2.1 h.collected.noLoop (loopEnd_endloopInsn words g.read) hbare hl

theorem PacketWords.length_eq (h : PacketWords T pre last g) (words : List (BitVec 32)) {l : List Insn}
    (hl : finishPacket T (g.encoded words) = some l) : l.length = (g.encoded words).length := by
  obtain ⟨-, -, l₁, l₂, -, -, -, h₁, h₂, hperm⟩ := h.arranged words (.inl rfl) hl
  rw [hperm.length_eq, ← h₂.length_eq, h₁.length_eq]

/-- A packet that ends in a bare extender has one extender too many. -/
theorem PacketWords.not_followed (h : PacketWords T pre last g) (words : List (BitVec 32)) {l : List Insn}
    (hl : finishPacket T (g.encoded words) = some l) {i : Insn} (hi : (g.encoded words).getLast? = some i)
    (he : i.isExtender = true) : ¬ Followed false l := by
  intro hf
  obtain ⟨-, -, l₁, l₂, -, -, h₁, -, h₂, hperm⟩ := h.arranged words (.inl rfl) hl
  have hcount := applyExtenders_count h₁ (h.encoded_facts words).1
  have hle := countExtenders_le hf
  have heq := count_sameButRegno h₂
  have hc₁ : countExtenders l = countExtenders l₂ := hperm.countP_eq _
  have hc₂ : countExtended l = countExtended l₂ := hperm.countP_eq _
  rw [hi, Option.any_some, he, if_pos rfl] at hcount
  simp only [Option.isSome_none, Bool.false_eq_true, and_false, if_false] at hcount
  omega

/-- In the array's bounds, at most seven words are read. -/
theorem PacketWords.length_lt (h : PacketWords T pre last g) (hg : InArray g.writes) :
    pre.length < instructionsMax ∧ g.insn.length ≤ instructionsMax := by
  have hplace := place_mem_gather (T := T) (pre ++ last :: []) false 0
  rw [h.gather_eq] at hplace
  have hlen := h.collected.length
  have hread := h.collected.read
  have hlast := hg _ (hplace (g.insn.length - 1) (by omega))
  omega

theorem PacketWords.length_encoded_le (h : PacketWords T pre last g) (words : List (BitVec 32))
    (hg : InArray g.writes) (hloop : g.stop = .ended → (endloopInsn words g.read).isSome = true →
      g.insn.length < instructionsMax) : (g.encoded words).length ≤ instructionsMax := by
  have hle := (h.length_lt hg).2
  rw [Gathered.encoded, List.length_append]
  cases he : endloopInsn words g.read with
  | none => simpa using hle
  | some e =>
    have := hloop h.collected.stop (by rw [he]; rfl)
    simpa using Nat.succ_le_of_lt this

/-- **`DecodePacket` keeps its bounds and returns only possible packets exactly when the words fit the array and a
packet that no check rejects has at most four words and does not end in a bare extender.** -/
theorem decodePacket_safe_iff (T : DecodeTables) (words : List (BitVec 32)) : DecodeSafe T words ↔
    SafeWords T words := by
  constructor
  · intro h
    refine ⟨inArray_iff.1 h.writes, fun pre last rest g hwords hspan hg hsome => ?_⟩
    obtain ⟨l, hl⟩ := Option.isSome_iff_exists.1 hsome
    rw [hwords] at hspan
    have hout := hg.decodePacket hspan
    have hgather := hg.gather_take hspan
    rw [← hwords] at hout hgather
    rw [finish, hl] at hout
    have hp := h.packet _ hout
    have hlt := (hg.length_lt (by
      have := (inArray_decodePacket.1 h.writes).1
      rwa [hgather] at this)).1
    have hmax := hp.size_max
    simp only [maxInstructionLength, instructionsMax] at hmax hlt
    refine ⟨by omega, fun i hi => ?_⟩
    cases he : i.isExtender
    · rfl
    · exact absurd (followed_iff.2 hp.extended) (hg.not_followed words hl hi he)
  · intro h
    refine ⟨decodePacket_reads, inArray_iff.2 h.fit, fun p hp => ?_⟩
    obtain ⟨pre, last, rest, g, hwords, hspan, hg, hgather, hfin⟩ := decodePacket_packet hp
    obtain ⟨hl, -, hsize⟩ := finish_packet hfin
    obtain ⟨hshort, hlast⟩ := h.packet pre last rest g hwords hspan hg (by rw [hl]; rfl)
    obtain ⟨core, c, -, -, hlc, harr, -⟩ := hg.arranged words (.inr hlast) hl
    have hlen := hg.length_eq words hl
    have hwrites := inArray_decodePacket.1 (inArray_iff.2 h.fit)
    rw [hgather] at hwrites
    have hsize4 : p.encodPktSizeInBytes = 4 * (pre.length + 1) := by omega
    have hsub : p.encodPktSizeInBytes / 4 - 1 = pre.length := by omega
    refine ⟨⟨?_, ?_⟩, by omega, by omega, ?_, ?_, ?_, ?_, ?_⟩
    · rw [hlen, Gathered.encoded, List.length_append]
      have := hg.collected.length
      have := hg.collected.read
      omega
    · rw [hlen]
      exact hg.length_encoded_le words hwrites.1 hwrites.2
    · rw [hsize4, hwords, List.length_append, List.length_cons]
      omega
    · rw [hsize4, maxInstructionLength]
      omega
    · rw [hsub, hwords]
      simpa using hg.collected.ends
    · rw [hsub, hwords]
      intro i hi
      rw [List.getElem?_append_left hi, List.getElem?_eq_getElem hi, Option.any_some]
      exact hg.collected.before _ (List.getElem_mem hi)
    · rw [hlc]
      exact followed_iff.1 harr.followed

end Safe

/-- The part of the tables for a few instruction words, their parse bits cleared. -/
def wordTables (entries : List (BitVec 32 × Insn)) : DecodeTables where
  root32 ext w := (entries.find? fun e => e.1 == w &&& 0xffff3fff && !e.2.endsLoop && !e.2.isSubInsn).map fun e =>
    { e.2 with part1 := false, extensionValid := ext }
  rootEe _ _ := none
  immextLetter _ := .r
  mmvecCheck l := some l
  root32_fresh ext w i hi := by
    obtain ⟨e, he, rfl⟩ := Option.map_eq_some_iff.1 hi
    have h := List.find?_some he
    simp only [Bool.and_eq_true, Bool.not_eq_true'] at h
    exact ⟨rfl, rfl, h.1.2, h.2⟩
  rootEe_fresh _ _ _ h := nomatch h
  mmvecCheck_same l l' h := by
    cases h
    exact List.forall₂_same.2 fun _ _ => ⟨rfl, rfl, rfl, rfl⟩

/-- `immext(#0)` and `nop`. -/
def nopTables : DecodeTables :=
  wordTables [(0, Opcodes.a4Ext.insn [] [0] (by decide)), (0x7f000000, Opcodes.a2Nop.insn [] [] (by decide))]

/-- Eight words none of which ends the packet, a packet of five words, and a packet that is an extender. -/
theorem decodePacket_unsafe : ¬ DecodeSafe nopTables (List.replicate 8 0x7f004000) ∧
    ¬ DecodeSafe nopTables (List.replicate 4 0x7f004000 ++ [0x7f00c000]) ∧ ¬ DecodeSafe nopTables [0x0000c000] := by
  refine ⟨fun h => ?_, fun h => ?_, fun h => ?_⟩
  · exact absurd (h.writes 7 (by decide +kernel)) (by decide)
  · exact absurd (h.packet _ rfl).size_max (by decide +kernel)
  · obtain ⟨j, hj, -⟩ := (h.packet _ rfl).extended 0 _ rfl (by decide +kernel)
    cases hj

end Hex
