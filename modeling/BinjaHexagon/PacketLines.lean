import BinjaHexagon.PacketTiles
/-!
# PacketLines — the words of a packet

A line of the disassembly is a word: an instruction, or the two halves of a duplex.  At the `j`-th word of a packet
`Lookup` finds the first instruction of the `j`-th line.
-/
namespace Hex

/-- The instructions of a packet, those of one word together. -/
def insnLines : List Insn → List (List Insn)
  | [] => []
  | [i] => [[i]]
  | i :: a :: l => if i.isSubInsn then [i, a] :: insnLines l else [i] :: insnLines (a :: l)

section Lines

variable {core c : List Insn}

theorem insnLines_word {i : Insn} (hi : i.isSubInsn = false) : ∀ l, insnLines (i :: l) = [i] :: insnLines l
  | [] => rfl
  | a :: l => by rw [insnLines, hi, if_neg Bool.false_ne_true]

theorem insnLines_duplex {b : Insn} (hb : b.isSubInsn = true) (a : Insn) (l : List Insn) :
    insnLines (b :: a :: l) = [b, a] :: insnLines l := by
  rw [insnLines, if_pos hb]

theorem flatten_insnLines : ∀ l : List Insn, (insnLines l).flatten = l
  | [] => rfl
  | [_] => rfl
  | i :: a :: l => by
    rw [insnLines]
    split
    · rw [List.flatten_cons, flatten_insnLines l]
      rfl
    · rw [List.flatten_cons, flatten_insnLines (a :: l)]
      rfl

/-- A line: a word, or a duplex. -/
def IsLine (u : List Insn) : Prop :=
  (∃ i, u = [i] ∧ i.isSubInsn = false) ∨ ∃ b a, u = [b, a] ∧ b.isSubInsn = true ∧ a.isSubInsn = true

theorem Paired.isLine (h : Paired core) : ∀ u ∈ insnLines core, IsLine u := by
  induction h with
  | nil => exact fun _ h => nomatch h
  | @word i l hi _ ih =>
    rw [insnLines_word hi]
    exact List.forall_mem_cons.2 ⟨.inl ⟨i, rfl, hi⟩, ih⟩
  | @duplex b a l hb ha _ ih =>
    rw [insnLines_duplex hb]
    exact List.forall_mem_cons.2 ⟨.inr ⟨b, a, rfl, hb, ha⟩, ih⟩

theorem IsLine.bytes {u : List Insn} (h : IsLine u) : insnBytes u = 4 := by
  rcases h with ⟨i, rfl, hi⟩ | ⟨b, a, rfl, hb, ha⟩
  · simp [insnBytes, Insn.size, hi]
  · simp [insnBytes, Insn.size, hb, ha]

theorem insnBytes_flatten : ∀ {us : List (List Insn)}, (∀ u ∈ us, IsLine u) → insnBytes us.flatten = 4 * us.length
  | [], _ => rfl
  | u :: us, h => by
    obtain ⟨hu, hus⟩ := List.forall_mem_cons.1 h
    rw [List.flatten_cons, insnBytes_append, hu.bytes, insnBytes_flatten hus, List.length_cons]
    omega

theorem flatten_length_eq_zero {us : List (List Insn)} (h : ∀ u ∈ us, IsLine u) : us.flatten.length = 0 ↔ us = [] := by
  constructor
  · intro h0
    have hbytes := insnBytes_flatten h
    rw [List.eq_nil_of_length_eq_zero h0] at hbytes
    have hnil : insnBytes [] = 0 := rfl
    exact List.eq_nil_of_length_eq_zero (by omega)
  · rintro rfl
    rfl

/-- A line, with the instructions before and behind it. -/
structure LineAt (core : List Insn) (pre : List (List Insn)) (u : List Insn) (post : List (List Insn)) : Prop where
  eq : insnLines core = pre ++ u :: post
  core_eq : core = pre.flatten ++ (u ++ post.flatten)
  line : IsLine u
  first : pre.flatten.length = 0 ↔ pre = []
  last : post.flatten.length = 0 ↔ post = []
  before : insnBytes pre.flatten = 4 * pre.length

theorem Paired.lineAt (h : Paired core) {pre post : List (List Insn)} {u : List Insn}
    (hu : insnLines core = pre ++ u :: post) : LineAt core pre u post := by
  have hlines := h.isLine
  rw [hu] at hlines
  have hpre : ∀ v ∈ pre, IsLine v := fun v hv => hlines v (List.mem_append_left _ hv)
  refine ⟨hu, ?_, hlines u (by simp), flatten_length_eq_zero hpre,
    flatten_length_eq_zero fun v hv => hlines v (by simp [hv]), insnBytes_flatten hpre⟩
  rw [← flatten_insnLines core, hu, List.flatten_append, List.flatten_cons]

theorem LineAt.length {pre post : List (List Insn)} {u : List Insn} (h : LineAt core pre u post) :
    core.length = pre.flatten.length + u.length + post.flatten.length := by
  have := congrArg List.length h.core_eq
  rw [List.length_append, List.length_append] at this
  omega

theorem LineAt.getElem? {pre post : List (List Insn)} {u : List Insn} (h : LineAt core pre u post) {k : Nat}
    (hk : k < u.length) : core[pre.flatten.length + k]? = u[k]? := by
  have hget : (pre.flatten ++ (u ++ post.flatten))[pre.flatten.length + k]? = u[k]? := by
    rw [List.getElem?_append_right (by omega), Nat.add_sub_cancel_left, List.getElem?_append_left hk]
  rwa [← h.core_eq] at hget

theorem Paired.bytes (h : Paired core) : insnBytes core = 4 * (insnLines core).length := by
  have := insnBytes_flatten h.isLine
  rwa [flatten_insnLines] at this

end Lines

section Find

variable {T : DecodeTables} {words : List (BitVec 32)} {p : Packet} {core c : List Insn} {db : PacketDb} {start : Nat}

theorem PacketOrder.getElem?_line (h : PacketOrder T words p core c) {pre post : List (List Insn)} {u : List Insn}
    (hl : LineAt core pre u post) {k : Nat} (hk : k < u.length) : p.insn[pre.flatten.length + k]? = u[k]? := by
  have hlen := hl.length
  rw [h.insn, List.getElem?_append_left (by omega)]
  exact hl.getElem? hk

/-- What `Lookup` finds at the word behind the lines `pre`. -/
theorem PacketOrder.lookup_line (h : PacketOrder T words p core c) (hdb : StoredAt db start p)
    {pre post : List (List Insn)} {u : List Insn} (hl : LineAt core pre u post) :
    lookup db (start + 4 * pre.length) = some ⟨start, p, pre.flatten.length, start + 4 * pre.length⟩ := by
  obtain ⟨i, u', rfl⟩ : ∃ i u', u = i :: u' := by
    rcases hl.line with ⟨i, rfl, -⟩ | ⟨b, a, rfl, -⟩
    exacts [⟨i, [], rfl⟩, ⟨b, [a], rfl⟩]
  have hk : core[pre.flatten.length]? = some i := hl.getElem? (k := 0) (by simp)
  have hstart : insnStart start core pre.flatten.length = start + 4 * pre.length := by
    rw [insnStart, hl.core_eq, List.take_left, hl.before]
  have hlen : pre.flatten.length ≤ core.length := Nat.le_of_lt (List.getElem?_eq_some_iff.1 hk).1
  have hsize := i.size_pos
  have hfound := (h.lookup_at hdb hk (Nat.le_of_eq hstart) (by omega)).2
  rw [hfound, h.insn, insnStart_append hlen, hstart]

theorem PacketOrder.lastInsn (h : PacketOrder T words p core c) : getLastInsn p = (core.length : Int) - 1 := by
  unfold getLastInsn
  rw [h.insn]
  rcases h.arranged.loop with rfl | ⟨e, rfl, he⟩
  · rw [List.append_nil, if_neg]
    cases hl : core.getLast? with
    | none => decide
    | some i => rw [Option.any_some, h.arranged.noLoop i (List.mem_of_getLast? hl)]; decide
  · rw [List.getLast?_concat, Option.any_some, if_pos he, List.length_append, List.length_singleton]
    omega

theorem PacketOrder.exists_line (h : PacketOrder T words p core c) (hp : Paired core) {j : Nat}
    (hj : j < p.encodPktSizeInBytes / 4) :
    ∃ pre u post, LineAt core pre u post ∧ pre.length = j ∧ p.encodPktSizeInBytes / 4 = j + 1 + post.length := by
  have hlen : p.encodPktSizeInBytes / 4 = (insnLines core).length := by
    rw [← h.bytes, hp.bytes, Nat.mul_div_cancel_left _ (by decide)]
  rw [hlen] at hj ⊢
  have hcut : insnLines core = (insnLines core).take j ++ (insnLines core)[j] :: (insnLines core).drop (j + 1) := by
    rw [← List.drop_eq_getElem_cons hj, List.take_append_drop]
  refine ⟨_, _, _, hp.lineAt hcut, List.length_take_of_le (Nat.le_of_lt hj), ?_⟩
  rw [List.length_drop]
  omega

end Find

end Hex
