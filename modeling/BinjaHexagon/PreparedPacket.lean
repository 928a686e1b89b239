import BinjaHexagon.PrepareOrder
/-!
# PreparedPacket — `PreparePacketForLifting` on what `DecodePacket` returns

The extenders are gone, every compound jump has its compare half before everything else, the endloop stays last.
-/
namespace Hex

section Pieces

theorem removeExtenders_eq {bare : Bool} : ∀ {l : List Insn}, Followed bare l →
    removeExtenders l = l.filter fun i => !i.isExtender
  | [], _ => rfl
  | [i], _ => by
    unfold removeExtenders
    cases he : i.isExtender
    · rw [if_neg (by rw [← Insn.isExtender, he]; decide), List.filter_cons_of_pos (by rw [he]; rfl), List.filter_nil]
    · rw [if_pos (by rw [← Insn.isExtender, he]), List.filter_cons_of_neg (by rw [he]; decide), List.filter_nil]
  | i :: j :: l, h => by
    unfold removeExtenders
    cases he : i.isExtender with
    | false =>
      rw [if_neg (by rw [← Insn.isExtender, he]; decide), removeExtenders_eq h.2,
        List.filter_cons_of_pos (a := i) (by rw [he]; rfl)]
    | true =>
      have hj : j.isExtender = false := by
        rcases h.1 he with ⟨k, hk, hext⟩ | ⟨-, hall⟩
        · obtain rfl : j = k := by simpa using hk
          exact hext.not_extender
        · exact hall j List.mem_cons_self
      rw [if_pos (by rw [← Insn.isExtender, he]), removeExtenders_eq h.2.2,
        List.filter_cons_of_neg (by rw [he]; decide), List.filter_cons_of_pos (by rw [hj]; rfl)]

/-- The compare half of a compound jump. -/
def part1Copy (i : Insn) : Insn := { i with part1 := true }

theorem part1ToFront_skip (r : List Insn) (m : Nat) : ∀ (b a : List Insn), (∀ i ∈ b, i.part1 = false) →
    part1ToFront a.length (b.length + m) (a ++ b ++ r) = part1ToFront (a.length + b.length) m (a ++ b ++ r)
  | [], a, _ => by simp
  | x :: b, a, h => by
    obtain ⟨hx, hb⟩ := List.forall_mem_cons.1 h
    have hget : (a ++ x :: b ++ r)[a.length]? = some x := by simp
    have ih := part1ToFront_skip r m b (a ++ [x]) hb
    rw [List.length_cons, show b.length + 1 + m = b.length + m + 1 by omega, part1ToFront]
    simp only [hget, Option.map_some, Option.getD_some, hx, Bool.false_eq_true, if_false]
    simpa [Nat.add_assoc, Nat.add_comm 1] using ih

theorem part1ToFront_halves (b : List Insn) : ∀ (c a : List Insn), (∀ i ∈ c, i.part1 = true) →
    part1ToFront (a.length + b.length) c.length (a ++ b ++ c) = c.reverse ++ a ++ b
  | [], a, _ => by simp [part1ToFront]
  | x :: c, a, h => by
    obtain ⟨hx, hc⟩ := List.forall_mem_cons.1 h
    have hget : (a ++ b ++ x :: c)[a.length + b.length]? = some x := by simp
    have hsend : sendInsnTo (a ++ b ++ x :: c) (a.length + b.length) 0 = x :: a ++ b ++ c := by
      have := sendInsnTo_zero (a ++ b) c x
      rw [List.length_append] at this
      simpa using this
    have ih := part1ToFront_halves b c (x :: a) hc
    rw [List.length_cons, part1ToFront]
    simp only [hget, Option.map_some, Option.getD_some, hx, if_true, hsend]
    rw [List.length_cons, show a.length + 1 + b.length = a.length + b.length + 1 by omega] at ih
    rw [ih]
    simp

theorem splitCmpjump_eq {l : List Insn} (hpart1 : ∀ i ∈ l, i.part1 = false)
    (hlen : l.length + l.countP (·.attrib .newcmpjump) ≤ instructionsMax) :
    splitCmpjump l = some (((l.filter (·.attrib .newcmpjump)).map part1Copy).reverse ++ l) := by
  have hjumps : (l.map fun i => if i.attrib .newcmpjump then { i with part1 := false } else i) = l := by
    rw [List.map_congr_left (g := id) fun i hi => ?_, List.map_id]
    have := hpart1 i hi
    split
    · cases i
      simp only at this
      subst this
      rfl
    · rfl
  unfold splitCmpjump
  simp only [hjumps]
  have hlen' : (l ++ (l.filter fun i : Insn => i.attrib .newcmpjump).map fun i : Insn =>
      { i with part1 := true }).length ≤ instructionsMax := by
    rw [List.length_append, List.length_map, ← List.countP_eq_length_filter]
    exact hlen
  rw [if_pos hlen']
  have hskip := part1ToFront_skip ((l.filter (·.attrib .newcmpjump)).map part1Copy)
    ((l.filter (·.attrib .newcmpjump)).map part1Copy).length l [] hpart1
  have hhalves := part1ToFront_halves l ((l.filter (·.attrib .newcmpjump)).map part1Copy) []
    (fun i hi => by obtain ⟨j, -, rfl⟩ := List.mem_map.1 hi; rfl)
  simp only [List.length_nil, List.nil_append, Nat.zero_add, List.append_nil] at hskip hhalves
  rw [hhalves] at hskip
  rw [List.length_append]
  exact congrArg some hskip

end Pieces

/-- What the shuffle moves: neither extenders nor the endloop. -/
def shuffledInsns (l : List Insn) : List Insn := l.filter fun i => !i.isExtender && !i.endsLoop

/-- The prepared packet is the compare halves and then the instructions of the packet `l`, the endloop last. -/
structure Rearranged (l halves rest : List Insn) : Prop where
  halves_perm : halves.Perm ((l.filter (·.attrib .newcmpjump)).map part1Copy)
  rest_perm : rest.Perm (l.filter fun i => !i.isExtender)
  whole : ∀ i ∈ rest, i.part1 = false
  endloop : ∀ e ∈ l, e.endsLoop = true → rest.getLast? = some e

/-- The memory accesses, and the branches, are in the order of the packet `l`. -/
structure OrdersKept (l rest : List Insn) : Prop where
  mem : rest.filter Insn.isMem = l.filter Insn.isMem
  branches : rest.filter Insn.canJump = l.filter Insn.canJump

section Prepared

variable {T : DecodeTables} {words : List (BitVec 32)} {p : Packet} {bare : Bool} {core c : List Insn}

/-- A packet of `DecodePacket` has the shape of a decoded packet. -/
theorem decodePacket_arranged (h : (decodePacket T words).outcome = .packet p) :
    ∃ core c, p.insn = core ++ c ∧ Arranged true core c := by
  obtain ⟨pre, last, rest, g, hwords, -, hg, -, hfin⟩ := decodePacket_packet h
  obtain ⟨core, c, -, -, hl, harr, -⟩ := hg.arranged words (.inl rfl) (finish_packet hfin).1
  exact ⟨core, c, hl, harr⟩

theorem extender_not {i : Insn} (h : i.isMem = true ∨ i.canJump = true ∨ i.attrib .newcmpjump = true ∨
    i.endsLoop = true) : i.isExtender = false := by
  cases he : i.isExtender
  · rfl
  · rcases h with h | h | h | h
    · rw [Insn.isMem, Insn.extender_lacks he (by decide), Insn.extender_lacks he (by decide)] at h
      cases h
    · have hsys : i.opcode.isSystem = false := by
        rw [Insn.isExtender_eq] at he
        rw [OpcodeRow.isSystem, beq_iff_eq.1 he]
        rfl
      simp only [Insn.canJump, Insn.extender_lacks he (a := .jump) (by decide),
        Insn.extender_lacks he (a := .call) (by decide), Bool.false_or] at h
      rw [OpcodeRow.isSystem] at hsys
      rw [hsys] at h
      cases h
    · rw [Insn.extender_lacks he (by decide)] at h
      cases h
    · rw [Insn.extender_not_endsLoop he] at h
      cases h

theorem filter_shuffled {q : Insn → Bool} (hq : ∀ i, q i = true → i.isExtender = false) :
    ((core.filter fun i => !i.isExtender) ++ c).filter q = (core ++ c).filter q := by
  rw [List.filter_append, List.filter_append, List.filter_filter]
  congr 1
  refine List.filter_congr fun i _ => ?_
  cases hqi : q i
  · rfl
  · rw [hq i hqi]
    rfl

theorem shuffledInsns_eq (h : Arranged bare core c) :
    shuffledInsns (core ++ c) = core.filter fun i => !i.isExtender := by
  have hcore : (core.filter fun i => !i.isExtender && !i.endsLoop) = core.filter fun i => !i.isExtender :=
    List.filter_congr fun i hi => by rw [h.noLoop i hi, Bool.not_false, Bool.and_true]
  have hc : (c.filter fun i => !i.isExtender && !i.endsLoop) = [] := by
    rcases h.loop with rfl | ⟨e, rfl, he⟩
    · rfl
    · simp [he]
  rw [shuffledInsns, List.filter_append, hcore, hc, List.append_nil]

/-- The shuffle of a decoded packet ends, the endloop in its place. -/
theorem shuffle_removed (h : Arranged bare core c)
    (hlen : (core ++ c).countP (fun i => !i.isExtender) ≤ instructionsMax) :
    ∃ core', shuffleForExecution shuffleFuel (removeExtenders (core ++ c)) = some (core' ++ c) ∧
      (core' ++ c).Perm ((core ++ c).filter fun i => !i.isExtender) ∧
      (OrderSafe (shuffledInsns (core ++ c)) → OrdersKept (core ++ c) (core' ++ c)) := by
  have hc : (c.filter fun i => !i.isExtender) = c := by
    rcases h.loop with rfl | ⟨e, rfl, he⟩
    · rfl
    · simp [extender_not (.inr (.inr (.inr he)))]
  have hremove : removeExtenders (core ++ c) = (core.filter fun i => !i.isExtender) ++ c := by
    rw [removeExtenders_eq h.followed, List.filter_append, hc]
  have hle : (core.filter fun i => !i.isExtender).length ≤ instructionsMax := by
    rw [List.countP_append, List.countP_eq_length_filter] at hlen
    omega
  obtain ⟨core', hshuffle, hperm, horder⟩ := shuffleForExecution_core (c := c)
    (shuffled_append
      (fun i hi => h.noLoop i (List.mem_of_mem_filter hi)) h.loop) hle
  refine ⟨core', by rw [hremove]; exact hshuffle, ?_, fun hs => ?_⟩
  · rw [List.filter_append, hc]
    exact hperm.append_right c
  · rw [shuffledInsns_eq h] at hs
    obtain ⟨hmem, hbranch⟩ := horder hs
    constructor
    · rw [List.filter_append, hmem, ← List.filter_append, filter_shuffled fun i hi => extender_not (.inl hi)]
    · rw [List.filter_append, hbranch, ← List.filter_append, filter_shuffled fun i hi => extender_not (.inr (.inl hi))]

theorem filter_newcmpjump (l : List Insn) :
    (l.filter fun i => !i.isExtender).filter (·.attrib .newcmpjump) = l.filter (·.attrib .newcmpjump) := by
  rw [List.filter_filter]
  refine List.filter_congr fun i _ => ?_
  cases hn : i.attrib .newcmpjump
  · rfl
  · rw [extender_not (.inr (.inr (.inl hn)))]
    rfl

/-- The packet grows by one instruction for each compound jump. -/
theorem countP_shuffled {l m : List Insn} (h : m.Perm (l.filter fun i => !i.isExtender)) :
    m.length + m.countP (·.attrib .newcmpjump) =
      l.countP (fun i => !i.isExtender) + l.countP (·.attrib .newcmpjump) := by
  rw [h.countP_eq, List.countP_eq_length_filter, filter_newcmpjump, ← List.countP_eq_length_filter, h.length_eq,
    ← List.countP_eq_length_filter]

/-- **Preparation ends and keeps the instructions; the orders are kept where the packet is safe for it.** -/
theorem preparePacket_core (h : Arranged bare core c)
    (hfit : (core ++ c).countP (fun i => !i.isExtender) + (core ++ c).countP (·.attrib .newcmpjump) ≤ instructionsMax) :
    ∃ halves rest, preparePacketForLifting (core ++ c) = some (halves ++ rest) ∧ Rearranged (core ++ c) halves rest ∧
      (OrderSafe (shuffledInsns (core ++ c)) → OrdersKept (core ++ c) rest) := by
  obtain ⟨core', hshuffle, hperm, horder⟩ := shuffle_removed h (by omega)
  have hpart1 : ∀ i ∈ core' ++ c, i.part1 = false := fun i hi =>
    h.part1 i (List.mem_of_mem_filter (hperm.mem_iff.1 hi))
  have hsplit := splitCmpjump_eq hpart1 (by rw [countP_shuffled hperm]; exact hfit)
  refine ⟨(((core' ++ c).filter (·.attrib .newcmpjump)).map part1Copy).reverse, core' ++ c, ?_,
    ⟨?_, hperm, hpart1, ?_⟩, horder⟩
  · unfold preparePacketForLifting
    simp only [hshuffle, bind, Option.bind_some]
    exact hsplit
  · refine (List.reverse_perm _).trans (List.Perm.map _ ?_)
    rw [← filter_newcmpjump (core ++ c)]
    exact hperm.filter _
  · intro e he hends
    rcases List.mem_append.1 he with he | he
    · rw [h.noLoop e he] at hends
      cases hends
    · rcases h.loop with rfl | ⟨e', rfl, -⟩
      · cases he
      · rw [List.mem_singleton.1 he, List.getLast?_concat]

end Prepared

end Hex
