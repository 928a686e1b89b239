import BinjaHexagon.DecodeShape
/-!
# DecodeWords — the loop over the words

A word that does not end the packet gives one instruction, the last word one or two: the place a word is decoded into is
the number of words before it.  What stands behind the end of the packet is never read.
-/
namespace Hex

section Loop

variable {T : DecodeTables}

theorem not_isPacketEnd {w : BitVec 32} (h : isPacketEnd w = false) : parseBits w ≠ 0 := by
  intro h0
  rw [isPacketEnd, h0] at h
  exact absurd h (by decide)

theorem decodeInsns_some {ext : Bool} {n : Nat} {w : BitVec 32} {writes : List Nat} {is : List Insn}
    (h : T.decodeInsns ext n w = (writes, some is)) :
    (∃ i, is = [i] ∧ i.Fresh ext false ∧ writes = [n]) ∨
      parseBits w = 0 ∧ ∃ b a, is = [b, a] ∧ b.Fresh ext true ∧ a.Fresh false true ∧ writes = [n, n + 1] := by
  unfold DecodeTables.decodeInsns at h
  split at h
  · split at h
    · cases h
    · rename_i i hi
      split at h
      · cases h
      · cases h
        exact .inl ⟨i, rfl, T.root32_fresh ext w i hi, rfl⟩
  · rename_i h0
    split at h
    · cases h
    · cases h
    · cases h
    · cases h
    · rename_i b a hba
      have hf := T.rootEe_fresh ext w _ hba
      split at h
      · cases h
      · cases h
        exact .inr ⟨by simpa using h0, b, a, rfl, hf.1 b rfl, hf.2 a rfl, rfl⟩

/-- Only the instruction after an extender is marked. -/
def Marked : Bool → List Insn → Prop
  | _, [] => True
  | ext, i :: l => (i.extensionValid = true → ext = true) ∧ Marked i.isExtender l

theorem Marked.append {e : Insn} (he : e.extensionValid = false) : ∀ {ext : Bool} {l : List Insn}, Marked ext l →
    Marked ext (l ++ [e])
  | _, [], _ => ⟨fun h => absurd h (by rw [he]; decide), trivial⟩
  | _, _ :: _, h => ⟨h.1, Marked.append he h.2⟩

/-- What the loop has read and collected when it finds the end of the packet. -/
structure Collected (ext : Bool) (g : Gathered) (words : List (BitVec 32)) (last : BitVec 32) : Prop where
  read : g.read = words.length + 1
  stop : g.stop = .ended
  before : ∀ v ∈ words, isPacketEnd v = false
  ends : isPacketEnd last = true
  marked : Marked ext g.insn
  part1 : ∀ i ∈ g.insn, i.part1 = false
  noLoop : ∀ i ∈ g.insn, i.endsLoop = false
  length : g.insn.length = g.read ∨ parseBits last = 0 ∧ g.insn.length = g.read + 1
  bytes : insnBytes g.insn = 4 * g.read

theorem mark_eq (i : Insn) (l : List Insn) :
    ((i :: l).head?.any fun j => j.opcode.tag == .a4Ext) = i.isExtender := by
  rw [Insn.isExtender_eq]
  rfl

theorem gather_failed {ext : Bool} {n : Nat} {w : BitVec 32} {ws : List (BitVec 32)} {writes : List Nat}
    (h : T.decodeInsns ext n w = (writes, none)) : gather T ext n (w :: ws) = ⟨[], writes, 1, .failed⟩ := by
  rw [gather, h]

theorem gather_end {ext : Bool} {n : Nat} {w : BitVec 32} {ws : List (BitVec 32)} {writes : List Nat} {i : Insn}
    {l : List Insn} (h : T.decodeInsns ext n w = (writes, some (i :: l))) (hw : isPacketEnd w = true) :
    gather T ext n (w :: ws) = ⟨i :: l, writes ++ if i.isExtender then [n + 1] else [], 1, .ended⟩ := by
  rw [gather, h]
  simp only [mark_eq, hw, if_true]

theorem gather_next {ext : Bool} {n : Nat} {w : BitVec 32} {ws : List (BitVec 32)} {writes : List Nat} {i : Insn}
    {l : List Insn} (h : T.decodeInsns ext n w = (writes, some (i :: l))) (hw : isPacketEnd w = false) :
    gather T ext n (w :: ws) =
      ⟨(i :: l) ++ (gather T i.isExtender (n + (l.length + 1)) ws).insn,
        (writes ++ if i.isExtender then [n + 1] else []) ++ (gather T i.isExtender (n + (l.length + 1)) ws).writes,
        (gather T i.isExtender (n + (l.length + 1)) ws).read + 1,
            (gather T i.isExtender (n + (l.length + 1)) ws).stop⟩ := by
  rw [gather, h]
  simp only [mark_eq, hw, Bool.false_eq_true, if_false, List.length_cons]

/-- **The loop stops at the first end of a packet**, whatever stands behind it. -/
theorem gather_ended : ∀ {words : List (BitVec 32)} {ext : Bool} {n : Nat}, (gather T ext n words).stop = .ended →
    ∃ pre last rest, words = pre ++ last :: rest ∧ Collected ext (gather T ext n words) pre last ∧
      ∀ rest', gather T ext n (pre ++ last :: rest') = gather T ext n words
  | [], _, _, h => nomatch h
  | w :: ws, ext, n, h => by
    rcases hd : T.decodeInsns ext n w with ⟨writes, _ | is⟩
    · rw [gather_failed hd] at h
      cases h
    · cases hw : isPacketEnd w with
      | true =>
        rcases decodeInsns_some hd with ⟨i, rfl, hi, -⟩ | ⟨h0, b, a, rfl, hb, ha, -⟩
        · refine ⟨[], w, ws, rfl, ?_, fun rest' => ?_⟩
          · rw [gather_end hd hw]
            exact ⟨rfl, rfl, nofun, hw, ⟨fun h => by rw [← hi.extensionValid, h], trivial⟩, by simp [hi.part1],
              by simp [hi.endsLoop], .inl rfl, by simp [insnBytes, Insn.size, hi.isSubInsn]⟩
          · rw [gather_end hd hw, List.nil_append, gather_end hd hw]
        · refine ⟨[], w, ws, rfl, ?_, fun rest' => ?_⟩
          · rw [gather_end hd hw]
            exact ⟨rfl, rfl, nofun, hw, ⟨fun h => by rw [← hb.extensionValid, h],
              fun h => absurd h (by rw [ha.extensionValid]; decide), trivial⟩, by simp [hb.part1, ha.part1],
              by simp [hb.endsLoop, ha.endsLoop], .inr ⟨h0, rfl⟩,
              by simp [insnBytes, Insn.size, hb.isSubInsn, ha.isSubInsn]⟩
          · rw [gather_end hd hw, List.nil_append, gather_end hd hw]
      | false =>
        rcases decodeInsns_some hd with ⟨i, rfl, hi, -⟩ | ⟨h0, -⟩
        · rw [gather_next hd hw] at h ⊢
          obtain ⟨pre, last, rest, hws, hc, hrest⟩ := gather_ended h
          refine ⟨w :: pre, last, rest, by rw [hws, List.cons_append], ?_, fun rest' => ?_⟩
          · refine ⟨by rw [hc.read]; rfl, hc.stop, ?_, hc.ends, ⟨fun h => by rw [← hi.extensionValid, h], hc.marked⟩,
              ?_, ?_, ?_, ?_⟩
            · exact List.forall_mem_cons.2 ⟨hw, hc.before⟩
            · exact List.forall_mem_cons.2 ⟨hi.part1, hc.part1⟩
            · exact List.forall_mem_cons.2 ⟨hi.endsLoop, hc.noLoop⟩
            · simp only [List.singleton_append, List.length_cons]
              exact hc.length.imp (by omega) fun ⟨h0, hl⟩ => ⟨h0, by omega⟩
            · have hb := hc.bytes
              simp only [insnBytes, List.map_append, List.sum_append] at hb ⊢
              rw [hb]
              simp [Insn.size, hi.isSubInsn]
              omega
          · rw [List.cons_append, gather_next hd hw, hrest rest']
        · exact absurd h0 (not_isPacketEnd hw)

theorem gather_read_le : ∀ (words : List (BitVec 32)) (ext : Bool) (n : Nat),
    (gather T ext n words).read ≤ words.length
  | [], _, _ => Nat.le_refl _
  | w :: ws, ext, n => by
    rcases hd : T.decodeInsns ext n w with ⟨writes, _ | is⟩
    · rw [gather_failed hd]
      exact Nat.succ_le_succ (Nat.zero_le _)
    · have hcons : ∃ i l, is = i :: l := by
        rcases decodeInsns_some hd with ⟨i, rfl, -⟩ | ⟨-, b, a, rfl, -⟩
        exacts [⟨i, [], rfl⟩, ⟨b, [a], rfl⟩]
      obtain ⟨i, l, rfl⟩ := hcons
      cases hw : isPacketEnd w with
      | true =>
        rw [gather_end hd hw]
        exact Nat.succ_le_succ (Nat.zero_le _)
      | false =>
        rw [gather_next hd hw]
        exact Nat.succ_le_succ (gather_read_le ws _ _)

end Loop

section Counts

variable {T : DecodeTables}

/-- How many instructions are marked as extended. -/
def countExtended (l : List Insn) : Nat := l.countP (·.extensionValid)

def countExtenders (l : List Insn) : Nat := l.countP (·.isExtender)

theorem followed_iff : ∀ {l : List Insn}, Followed false l ↔
    ∀ k i, l[k]? = some i → i.isExtender = true → ∃ j, l[k + 1]? = some j ∧ j.IsExtended
  | [] => ⟨fun _ _ _ h => (nomatch h), fun _ => trivial⟩
  | i :: l => by
    constructor
    · rintro ⟨hi, hl⟩ k x hx he
      cases k with
      | zero =>
        cases hx
        rcases hi he with ⟨j, hj, hext⟩ | ⟨hb, -⟩
        · exact ⟨j, by rw [List.getElem?_cons_succ, ← List.head?_eq_getElem?]; exact hj, hext⟩
        · cases hb
      | succ k => exact followed_iff.1 hl k x hx he
    · intro h
      refine ⟨fun he => .inl ?_, followed_iff.2 fun k x hx he => h (k + 1) x hx he⟩
      obtain ⟨j, hj, hext⟩ := h 0 i rfl he
      exact ⟨j, by rw [List.head?_eq_getElem?]; exact hj, hext⟩

/-- Where every extender is followed by what it extends, there are no more extenders than extended instructions. -/
theorem countExtenders_le : ∀ {l : List Insn}, Followed false l →
    countExtenders l + (if l.head?.any (·.extensionValid) then 1 else 0) ≤ countExtended l
  | [], _ => Nat.le_refl _
  | i :: l, ⟨hi, hl⟩ => by
    have ih := countExtenders_le hl
    have hnext : (if i.isExtender then 1 else 0) ≤ if l.head?.any (·.extensionValid) then 1 else 0 := by
      split
      · rename_i he
        rcases hi he with ⟨j, hj, hext⟩ | ⟨hb, -⟩
        · rw [Option.mem_def.1 hj, Option.any_some, hext.2]
          exact Nat.le_refl _
        · cases hb
      · exact Nat.zero_le _
    unfold countExtenders countExtended at *
    rw [List.countP_cons, List.countP_cons, List.head?_cons, Option.any_some]
    cases hv : i.extensionValid <;> cases he : i.isExtender <;>
      simp only [he, Bool.false_eq_true, if_true, if_false] at hnext ⊢ <;> omega

/-- The extender left over at the end is one more than the extended instructions. -/
theorem applyExtenders_count : ∀ {e : Option (BitVec 32)} {l l' : List Insn}, applyExtenders T e l = some l' →
    Marked e.isSome l → countExtended l' + (if l.getLast?.any (·.isExtender) then 1 else 0) =
      countExtenders l' + if l.isEmpty = false ∧ e.isSome = true then 1 else 0
  | none, [], l', h, _ => by cases h; rfl
  | some e, [], l', h, _ => by
    obtain ⟨-, -, rfl⟩ := Option.map_eq_some_iff.1 h
    rfl
  | e, i :: l, l', h, hm => by
    obtain ⟨i', hi, l'', hl, h⟩ := applyExtenders_cons h
    cases h
    obtain ⟨hkind, hext, hsame⟩ := extend_some hi
    have hvalid : i'.extensionValid = e.isSome := by
      cases e with
      | none =>
        rw [hsame rfl]
        cases hv : i.extensionValid
        · rfl
        · exact absurd (hm.1 hv) (by decide)
      | some e => exact (hext rfl).2
    have hmark : (if i'.isExtender then some (i'.imm 0) else none).isSome = i.isExtender := by
      rw [hkind.isExtender]
      cases i.isExtender <;> rfl
    have ih := applyExtenders_count hl (by rw [hmark]; exact hm.2)
    rw [hmark] at ih
    unfold countExtenders countExtended at *
    rw [List.countP_cons, List.countP_cons, hvalid, hkind.isExtender]
    cases l with
    | nil =>
      cases he : e.isSome <;> cases hi : i.isExtender <;> simp [hi] at ih ⊢ <;> omega
    | cons k l =>
      rw [List.getLast?_cons_cons]
      cases he : e.isSome <;> cases hi : i.isExtender <;>
        simp only [hi, List.isEmpty_cons, true_and, Bool.false_eq_true, if_true, if_false] at ih ⊢ <;> omega

theorem count_sameButRegno : ∀ {l l' : List Insn}, List.Forall₂ Insn.SameButRegno l l' →
    countExtenders l' = countExtenders l ∧ countExtended l' = countExtended l
  | _, _, .nil => ⟨rfl, rfl⟩
  | _, _, .cons h t => by
    have ih := count_sameButRegno t
    unfold countExtenders countExtended at *
    simp only [List.countP_cons, h.sameKind.isExtender, ← h.extensionValid, ih.1, ih.2, and_self]

end Counts

section Packets

variable {T : DecodeTables} {words : List (BitVec 32)} {p : Packet}

theorem endloopInsn_some {read : Nat} {e : Insn} (h : endloopInsn words read = some e) :
    e.endsLoop = true ∧ e.isExtender = false ∧ e.part1 = false ∧ e.extensionValid = false ∧ 2 ≤ read := by
  unfold endloopInsn at h
  simp only at h
  split at h
  · split at h <;> cases h
    exact ⟨rfl, rfl, rfl, rfl, by omega⟩
  · split at h
    · split at h
      · cases h
        exact ⟨rfl, rfl, rfl, rfl, by omega⟩
      · split at h
        · cases h
          exact ⟨rfl, rfl, rfl, rfl, by omega⟩
        · split at h <;> cases h
          exact ⟨rfl, rfl, rfl, rfl, by omega⟩
    · cases h

theorem loopEnd_endloopInsn (words : List (BitVec 32)) (read : Nat) : LoopEnd (endloopInsn words read).toList := by
  cases h : endloopInsn words read with
  | none => exact .inl rfl
  | some e => exact .inr ⟨e, rfl, (endloopInsn_some h).1⟩

theorem endloopInsn_congr (pre rest rest' : List (BitVec 32)) (last : BitVec 32) :
    endloopInsn (pre ++ last :: rest) (pre.length + 1) = endloopInsn (pre ++ last :: rest') (pre.length + 1) := by
  rcases pre with _ | ⟨v, _ | ⟨u, pre⟩⟩ <;> rfl

/-- The words `decode_packet` sees as one packet, with the instructions they give. -/
structure PacketWords (T : DecodeTables) (pre : List (BitVec 32)) (last : BitVec 32) (g : Gathered) : Prop where
  collected : Collected false g pre last
  gather_eq : ∀ rest, gather T false 0 (pre ++ last :: rest) = g

/-- The instructions before the passes: those of the words, and the endloop. -/
def Gathered.encoded (g : Gathered) (words : List (BitVec 32)) : List Insn :=
  g.insn ++ (endloopInsn words g.read).toList

theorem finish_packet {read : Nat} {l : List Insn} (h : finish T read l = .packet p) :
    finishPacket T l = some p.insn ∧ p.pktHasCof = hasCof p.insn ∧ p.encodPktSizeInBytes = 4 * read % 2 ^ 16 := by
  unfold finish at h
  split at h
  · cases h
  · rename_i l' hl
    cases h
    exact ⟨hl, rfl, rfl⟩

/-- **A packet comes from the words up to the first end of a packet.** -/
theorem decodePacket_packet (h : (decodePacket T words).outcome = .packet p) :
    ∃ pre last rest g, words = pre ++ last :: rest ∧ pre.length < maxWords words.length ∧ PacketWords T pre last g ∧
      gather T false 0 (words.take (maxWords words.length)) = g ∧
      finish T (pre.length + 1) (g.encoded words) = .packet p := by
  unfold decodePacket at h
  cases hstop : (gather T false 0 (words.take (maxWords words.length))).stop with
  | failed => simp only [hstop, reduceCtorEq] at h
  | insufficient => simp only [hstop, reduceCtorEq] at h
  | ended =>
    simp only [hstop] at h
    obtain ⟨pre, last, rest, hwords, hc, hrest⟩ := gather_ended hstop
    have hlen := congrArg List.length hwords
    simp only [List.length_take, List.length_append, List.length_cons] at hlen
    rw [hc.read] at h
    refine ⟨pre, last, rest ++ words.drop (maxWords words.length), _, ?_, by omega, ⟨hc, hrest⟩, rfl, ?_⟩
    · rw [← List.cons_append, ← List.append_assoc, ← hwords, List.take_append_drop]
    · unfold Gathered.encoded
      rw [hc.read]
      exact h

theorem PacketWords.gather_take {pre rest : List (BitVec 32)} {last : BitVec 32} {g : Gathered}
    (h : PacketWords T pre last g) (hspan : pre.length < maxWords (pre ++ last :: rest).length) :
    gather T false 0 ((pre ++ last :: rest).take (maxWords (pre ++ last :: rest).length)) = g := by
  obtain ⟨k, hk⟩ := Nat.exists_eq_add_of_le (Nat.succ_le_of_lt hspan)
  rw [hk, Nat.succ_eq_add_one, List.take_append, List.take_of_length_le (by omega),
    show pre.length + 1 + k - pre.length = k + 1 by omega, List.take_succ_cons]
  exact h.gather_eq _

/-- The same words give the same packet, whatever follows them. -/
theorem PacketWords.decodePacket {pre rest : List (BitVec 32)} {last : BitVec 32} {g : Gathered}
    (h : PacketWords T pre last g) (hspan : pre.length < maxWords (pre ++ last :: rest).length) :
    (decodePacket T (pre ++ last :: rest)).outcome = finish T (pre.length + 1) (g.encoded (pre ++ last :: rest)) := by
  unfold Hex.decodePacket
  simp only [h.gather_take hspan, h.collected.stop]
  unfold Gathered.encoded
  rw [h.collected.read]

theorem PacketWords.decodePacket_congr {pre rest rest' : List (BitVec 32)} {last : BitVec 32} {g : Gathered}
    (h : PacketWords T pre last g) (hspan : pre.length < maxWords (pre ++ last :: rest).length)
    (hspan' : pre.length < maxWords (pre ++ last :: rest').length) :
    Hex.decodePacket T (pre ++ last :: rest) = Hex.decodePacket T (pre ++ last :: rest') := by
  unfold Hex.decodePacket
  simp only [h.gather_take hspan, h.gather_take hspan', h.collected.stop, h.collected.read,
    endloopInsn_congr pre rest rest' last]

/-- The list `decode_apply_extenders` leaves, when `decode_packet` gets there. -/
def passInput (T : DecodeTables) (words : List (BitVec 32)) : Option (List Insn) :=
  let g := gather T false 0 (words.take (maxWords words.length))
  match g.stop with
  | .failed | .insufficient => none
  | .ended => applyExtenders T none (g.encoded words)

theorem passInput_some {l : List Insn} (h : passInput T words = some l) :
    ∃ pre last, PacketWords T pre last (gather T false 0 (words.take (maxWords words.length))) ∧
      applyExtenders T none ((gather T false 0 (words.take (maxWords words.length))).encoded words) = some l := by
  unfold passInput at h
  cases hstop : (gather T false 0 (words.take (maxWords words.length))).stop with
  | failed => simp only [hstop, reduceCtorEq] at h
  | insufficient => simp only [hstop, reduceCtorEq] at h
  | ended =>
    simp only [hstop] at h
    obtain ⟨pre, last, -, -, hc, hrest⟩ := gather_ended hstop
    exact ⟨pre, last, ⟨hc, hrest⟩, h⟩

end Packets

end Hex
