import BinjaHexagon.PacketDecode
/-!
# DecodeShape — the order of a decoded packet

An extender stands before the instruction it extends, the endloop is last, nothing is split yet.  The passes of
`decode_packet` keep this: they overwrite operands, or send a vector instruction towards the end, and none of these is
an extender, extended, or an endloop.
-/
namespace Hex

section Moves

variable {α : Type}

theorem eraseIdx_length_append (a b : List α) (x : α) : (a ++ x :: b).eraseIdx a.length = a ++ b := by
  rw [List.eraseIdx_append_of_length_le (Nat.le_refl _)]
  simp

theorem insertIdx_length_append (x : α) (b : List α) : ∀ a : List α, (a ++ b).insertIdx a.length x = a ++ x :: b
  | [] => by simp
  | _ :: a => congrArg _ (insertIdx_length_append x b a)

theorem sendInsnTo_append (a b c : List α) (x : α) :
    sendInsnTo (a ++ x :: (b ++ c)) a.length (a.length + b.length) = a ++ b ++ x :: c := by
  have hget : (a ++ x :: (b ++ c))[a.length]? = some x := by simp
  unfold sendInsnTo
  simp only [hget, eraseIdx_length_append]
  rw [← List.length_append, ← List.append_assoc, insertIdx_length_append]

theorem sendInsnTo_zero (a b : List α) (x : α) : sendInsnTo (a ++ x :: b) a.length 0 = x :: (a ++ b) := by
  have hget : (a ++ x :: b)[a.length]? = some x := by simp
  unfold sendInsnTo
  simp only [hget, eraseIdx_length_append, List.insertIdx_zero]

theorem exists_append_cons_append {l : List α} {i j : Nat} {x : α} (hx : l[i]? = some x) (hij : i ≤ j)
    (hj : j < l.length) :
    ∃ a b c, l = a ++ x :: (b ++ c) ∧ a.length = i ∧ a.length + b.length = j := by
  obtain ⟨hi, rfl⟩ := List.getElem?_eq_some_iff.1 hx
  refine ⟨l.take i, (l.drop (i + 1)).take (j - i), (l.drop (i + 1)).drop (j - i), ?_, ?_, ?_⟩
  · rw [List.take_append_drop, ← List.drop_eq_getElem_cons hi, List.take_append_drop]
  · rw [List.length_take]; omega
  · rw [List.length_take, List.length_take, List.length_drop]; omega

end Moves

theorem OpcodeRow.attrib_of_lacks {o : OpcodeRow} {l : List Attrib} {a : Attrib} (h : o.lacks l = true) (ha : a ∈ l) :
    o.attrib a = false := by
  have := List.all_eq_true.1 h a ha
  simpa using this

namespace Insn

variable {i : Insn} {a : Attrib}

theorem isExtender_eq (i : Insn) : i.isExtender = (i.opcode.tag == .a4Ext) := by
  have h := i.opcode.consistent
  simp only [OpcodeRow.consistent, Bool.and_eq_true, beq_iff_eq] at h
  exact h.1.1.1.1.1.1.1.1

theorem extender_lacks (h : i.isExtender = true) (ha : a ∈ [Attrib.extendable, .store, .load, .dotnewvalue, .newcmpjump,
    .jump, .call, .subinsn, .cvi]) : i.attrib a = false := by
  have hc := i.opcode.consistent
  simp only [OpcodeRow.consistent, Bool.and_eq_true, Bool.or_eq_true, Bool.not_eq_true'] at hc
  rcases hc.1.1.1.1.1.1.2 with he | hl
  · exact absurd h (by rw [isExtender, attrib, he]; decide)
  · exact OpcodeRow.attrib_of_lacks hl.2 ha

theorem extender_not_endsLoop (h : i.isExtender = true) : i.endsLoop = false := by
  have hc := i.opcode.consistent
  simp only [OpcodeRow.consistent, Bool.and_eq_true, Bool.or_eq_true, Bool.not_eq_true'] at hc
  rcases hc.1.1.1.1.1.1.2 with he | hl
  · exact absurd h (by rw [isExtender, attrib, he]; decide)
  · exact hl.1

theorem endsLoop_lacks (h : i.endsLoop = true) (ha : a ∈ [Attrib.extendable, .store, .load, .dotnewvalue, .newcmpjump,
    .cvi]) : i.attrib a = false := by
  have hc := i.opcode.consistent
  simp only [OpcodeRow.consistent, Bool.and_eq_true, Bool.or_eq_true, Bool.not_eq_true'] at hc
  rcases hc.1.1.1.1.1.2 with he | hl
  · exact absurd h (by rw [endsLoop, he]; decide)
  · exact OpcodeRow.attrib_of_lacks hl ha

theorem compare_lacks (h : i.isCompare = true) (ha : a ∈ [Attrib.store, .load, .dotnewvalue, .jump, .call]) :
    i.attrib a = false := by
  have hc := i.opcode.consistent
  simp only [OpcodeRow.consistent, Bool.and_eq_true, Bool.or_eq_true, Bool.not_eq_true'] at hc
  rcases hc.1.1.1.1.2 with he | hl
  · exact absurd h (by rw [isCompare, he]; decide)
  · exact OpcodeRow.attrib_of_lacks hl ha

theorem store_lacks (h : i.attrib .store = true) (ha : a ∈ [Attrib.jump, .call]) : i.attrib a = false := by
  have hc := i.opcode.consistent
  simp only [OpcodeRow.consistent, Bool.and_eq_true, Bool.or_eq_true, Bool.not_eq_true'] at hc
  rcases hc.1.1.1.2 with he | hl
  · exact absurd h (by rw [attrib, he]; decide)
  · exact OpcodeRow.attrib_of_lacks hl ha

theorem load_lacks (h : i.attrib .load = true) : i.attrib .dotnewvalue = false := by
  have hc := i.opcode.consistent
  simp only [OpcodeRow.consistent, Bool.and_eq_true, Bool.or_eq_true, Bool.not_eq_true'] at hc
  rcases hc.1.1.2 with he | hl
  · exact absurd h (by rw [attrib, he]; decide)
  · exact OpcodeRow.attrib_of_lacks hl (by decide)

theorem cvi_lacks (h : i.attrib .cvi = true) (ha : a ∈ [Attrib.extendable, .newcmpjump]) : i.attrib a = false := by
  have hc := i.opcode.consistent
  simp only [OpcodeRow.consistent, Bool.and_eq_true, Bool.or_eq_true, Bool.not_eq_true'] at hc
  rcases hc.1.2 with he | hl
  · exact absurd h (by rw [attrib, he]; decide)
  · exact OpcodeRow.attrib_of_lacks hl ha

theorem cvi_of_cviNew (h : i.attrib .cviNew = true) : i.attrib .cvi = true := by
  have hc := i.opcode.consistent
  simp only [OpcodeRow.consistent, Bool.and_eq_true, Bool.or_eq_true, Bool.not_eq_true'] at hc
  rcases hc.2.1 with he | hl
  · exact absurd h (by rw [attrib, he]; decide)
  · exact hl

theorem system_lacks (h : i.opcode.isSystem = true) (ha : a ∈ [Attrib.store, .load, .dotnewvalue]) :
    i.attrib a = false := by
  have hc := i.opcode.consistent
  simp only [OpcodeRow.consistent, Bool.and_eq_true, Bool.or_eq_true, Bool.not_eq_true'] at hc
  rcases hc.2.2 with he | hl
  · exact absurd h (by rw [he]; decide)
  · exact OpcodeRow.attrib_of_lacks hl.2 ha

theorem system_not_compare (h : i.opcode.isSystem = true) : i.isCompare = false := by
  have hc := i.opcode.consistent
  simp only [OpcodeRow.consistent, Bool.and_eq_true, Bool.or_eq_true, Bool.not_eq_true'] at hc
  rcases hc.2.2 with he | hl
  · exact absurd h (by rw [he]; decide)
  · exact hl.1

theorem canJump_not (h : i.canJump = true) : i.attrib .store = false ∧ i.isCompare = false := by
  have hj : i.attrib .jump = true ∨ i.attrib .call = true ∨ i.opcode.isSystem = true := by
    simp only [canJump, OpcodeRow.isSystem, Bool.and_eq_true, Bool.or_eq_true] at h ⊢
    tauto
  constructor
  · cases hs : i.attrib .store
    · rfl
    · rcases hj with hj | hj | hj
      · rw [store_lacks hs (by decide)] at hj; cases hj
      · rw [store_lacks hs (by decide)] at hj; cases hj
      · rw [system_lacks hj (by decide)] at hs; cases hs
  · cases hc : i.isCompare
    · rfl
    · rcases hj with hj | hj | hj
      · rw [compare_lacks hc (by decide)] at hj; cases hj
      · rw [compare_lacks hc (by decide)] at hj; cases hj
      · rw [system_not_compare hj] at hc; cases hc

theorem cvi_not_extender (h : i.attrib .cvi = true) : i.isExtender = false := by
  cases he : i.isExtender
  · rfl
  · rw [extender_lacks he (by decide)] at h; cases h

/-- What an extender leaves of the instruction after it. -/
def IsExtended (i : Insn) : Prop := i.attrib .extendable = true ∧ i.extensionValid = true

theorem IsExtended.not_endsLoop (h : i.IsExtended) : i.endsLoop = false := by
  cases he : i.endsLoop
  · rfl
  · exact absurd h.1 (by rw [endsLoop_lacks he (by decide)]; decide)

theorem IsExtended.not_cvi (h : i.IsExtended) : i.attrib .cvi = false := by
  cases hc : i.attrib .cvi
  · rfl
  · exact absurd h.1 (by rw [cvi_lacks hc (by decide)]; decide)

theorem IsExtended.not_extender (h : i.IsExtended) : i.isExtender = false := by
  cases hc : i.isExtender
  · rfl
  · exact absurd h.1 (by rw [extender_lacks hc (by decide)]; decide)

end Insn

/-- Every extender stands before the instruction it extends; a `bare` list may have one with no extender after it. -/
def Followed (bare : Bool) : List Insn → Prop
  | [] => True
  | i :: l =>
    (i.isExtender = true → (∃ j ∈ l.head?, j.IsExtended) ∨ bare = true ∧ ∀ j ∈ l, j.isExtender = false) ∧
      Followed bare l

/-- Nothing, or an endloop. -/
def LoopEnd (c : List Insn) : Prop := c = [] ∨ ∃ e, c = [e] ∧ e.endsLoop = true

theorem Followed.insert {bare : Bool} {x : Insn} (hx : x.isExtender = false) {c : List Insn} (hc : LoopEnd c) :
    ∀ {b : List Insn}, Followed bare (b ++ c) → Followed bare (b ++ x :: c)
  | [], h => ⟨fun he => absurd he (by rw [hx]; decide), h⟩
  | y :: b, h => by
    refine ⟨fun hy => ?_, Followed.insert hx hc (b := b) h.2⟩
    have hmem : ∀ j ∈ b ++ x :: c, j = x ∨ j ∈ b ++ c := fun j hj => by
      rcases List.mem_append.1 hj with hj | hj
      · exact .inr (List.mem_append_left _ hj)
      · exact (List.mem_cons.1 hj).imp id (List.mem_append_right _)
    rcases h.1 hy with ⟨j, hj, hext⟩ | ⟨hb, hall⟩
    · cases b with
      | nil =>
        rcases hc with rfl | ⟨e, rfl, he⟩
        · cases hj
        · obtain rfl : e = j := by simpa using hj
          exact absurd he (by rw [hext.not_endsLoop]; decide)
      | cons z b => exact .inl ⟨j, hj, hext⟩
    · refine .inr ⟨hb, fun j hj => ?_⟩
      rcases hmem j hj with rfl | hj
      · exact hx
      · exact hall j hj

theorem Followed.move {bare : Bool} {x : Insn} (hx : x.attrib .cvi = true) {b c : List Insn} (hc : LoopEnd c) :
    ∀ {a : List Insn}, Followed bare (a ++ x :: (b ++ c)) → Followed bare (a ++ b ++ x :: c)
  | [], h => Followed.insert (Insn.cvi_not_extender hx) hc h.2
  | y :: a, h => by
    refine ⟨fun hy => ?_, Followed.move hx hc (a := a) h.2⟩
    rcases h.1 hy with ⟨j, hj, hext⟩ | ⟨hb, hall⟩
    · cases a with
      | nil =>
        obtain rfl : x = j := by simpa using hj
        exact absurd hx (by rw [hext.not_cvi]; decide)
      | cons z a => exact .inl ⟨j, hj, hext⟩
    · have hperm : (a ++ b ++ x :: c).Perm (a ++ x :: (b ++ c)) := by
        rw [List.append_assoc]
        exact List.perm_middle.append_left a
      exact .inr ⟨hb, fun j hj => hall j (hperm.mem_iff.1 hj)⟩

/-- The shape of a decoded packet: `core`, and then the endloop if there is one. -/
structure Arranged (bare : Bool) (core c : List Insn) : Prop where
  part1 : ∀ i ∈ core ++ c, i.part1 = false
  noLoop : ∀ i ∈ core, i.endsLoop = false
  loop : LoopEnd c
  followed : Followed bare (core ++ c)

theorem shuffled_append {core c : List Insn} (hcore : ∀ i ∈ core, i.endsLoop = false) (hc : LoopEnd c) :
    shuffled (core ++ c) = core.length := by
  unfold shuffled
  rcases hc with rfl | ⟨e, rfl, he⟩
  · rw [List.append_nil]
    cases hl : core.getLast? with
    | none => rw [List.getLast?_eq_none_iff.1 hl]; rfl
    | some i => simp only [hcore i (List.mem_of_getLast? hl), Bool.false_eq_true, if_false]
  · simp [he]

theorem Arranged.shuffled_eq {bare : Bool} {core c : List Insn} (h : Arranged bare core c) :
    shuffled (core ++ c) = core.length := shuffled_append h.noLoop h.loop

/-- Without its endloop a packet is `core`. -/
theorem Arranged.filter_noLoop {bare : Bool} {core c : List Insn} (h : Arranged bare core c) :
    (core ++ c).filter (fun i => !i.endsLoop) = core := by
  rw [List.filter_append, List.filter_eq_self.2 fun i hi => by rw [h.noLoop i hi]; rfl]
  rcases h.loop with rfl | ⟨e, rfl, he⟩
  · exact List.append_nil _
  · rw [List.filter_singleton, he]
    exact List.append_nil _

section Moved

variable {bare : Bool} {core c : List Insn}

/-- A vector instruction sent to the end of what is shuffled. -/
theorem Arranged.sendCvi (h : Arranged bare core c) {i : Nat} {x : Insn} (hx : core[i]? = some x)
    (hcvi : x.attrib .cvi = true) :
    ∃ core', sendInsnTo (core ++ c) i (core.length - 1) = core' ++ c ∧ core'.Perm core ∧ Arranged bare core' c := by
  have hi : i < core.length := (List.getElem?_eq_some_iff.1 hx).1
  obtain ⟨a, b, d, hd, ha, hb⟩ := exists_append_cons_append hx (Nat.le_sub_one_of_lt hi) (by omega)
  have hlen := congrArg List.length hd
  simp only [List.length_append, List.length_cons] at hlen
  obtain rfl : d = [] := List.eq_nil_of_length_eq_zero (by omega)
  rw [List.append_nil] at hd
  have hperm : (a ++ b ++ [x]).Perm core := by
    rw [hd, List.append_assoc]
    exact (@List.perm_append_comm _ b [x]).append_left a
  have hsend : sendInsnTo (core ++ c) i (core.length - 1) = a ++ b ++ [x] ++ c := by
    rw [← hb, ← ha, hd, List.append_assoc, List.cons_append, sendInsnTo_append]
    simp
  refine ⟨a ++ b ++ [x], hsend, hperm, ?_, ?_, h.loop, ?_⟩
  · intro i hi
    exact h.part1 i ((hperm.append_right c).mem_iff.1 hi)
  · intro i hi
    exact h.noLoop i (hperm.mem_iff.1 hi)
  · have hf := h.followed
    rw [hd, List.append_assoc, List.cons_append] at hf
    have := Followed.move hcvi h.loop hf
    simpa using this

theorem Arranged.moveCviToEnd : ∀ {n i : Nat} {core : List Insn}, Arranged bare core c → i + n < core.length →
    ∃ core', Hex.moveCviToEnd (core.length - 1) n i (core ++ c) = core' ++ c ∧ core'.Perm core ∧ Arranged bare core' c
  | 0, _, core, h, _ => ⟨core, rfl, .rfl, h⟩
  | n + 1, i, core, h, hlt => by
    have hget : (core ++ c)[i]? = core[i]? := List.getElem?_append_left (by omega)
    rw [Hex.moveCviToEnd, hget]
    split
    · rename_i hcvi
      obtain ⟨x, hx, hcvi⟩ := (Option.any_eq_true _ _).1 hcvi
      obtain ⟨core₁, heq, hperm, h₁⟩ := h.sendCvi hx hcvi
      obtain ⟨core₂, heq₂, hperm₂, h₂⟩ := Arranged.moveCviToEnd (n := n) (i := i) h₁ (by rw [hperm.length_eq]; omega)
      rw [hperm.length_eq] at heq₂
      exact ⟨core₂, by rw [heq, heq₂], hperm₂.trans hperm, h₂⟩
    · exact Arranged.moveCviToEnd h (by omega)

theorem Arranged.shuffleVopsLoad (h : Arranged bare core c) :
    ∃ core', Hex.shuffleVopsLoad (core ++ c) = core' ++ c ∧ core'.Perm core ∧ Arranged bare core' c := by
  unfold Hex.shuffleVopsLoad
  split
  · rename_i i hi
    obtain ⟨hlt, hload, -⟩ := List.findIdx?_eq_some_iff_getElem.1 hi
    rw [h.shuffled_eq]
    refine h.moveCviToEnd ?_
    by_contra hge
    have hmem : (core ++ c)[i] ∈ c := by
      rw [List.getElem_append_right (by omega)]
      exact List.getElem_mem _
    rcases h.loop with rfl | ⟨e, rfl, he⟩
    · cases hmem
    · rw [List.mem_singleton.1 hmem, Insn.endsLoop_lacks he (by decide)] at hload
      cases hload
  · exact ⟨core, rfl, .rfl, h⟩

theorem Arranged.shuffleVopsStore (h : Arranged bare core c) :
    ∃ core', Hex.shuffleVopsStore (core ++ c) = core' ++ c ∧ core'.Perm core ∧ Arranged bare core' c := by
  unfold Hex.shuffleVopsStore
  split
  · rename_i i hi
    obtain ⟨hlt, hnew, -⟩ := List.findIdx?_eq_some_iff_getElem.1 hi
    rw [List.length_take, List.length_append] at hlt
    have hcore : i < core.length := by
      rcases h.loop with rfl | ⟨e, rfl, he⟩ <;> simp only [List.length_nil, List.length_singleton] at hlt <;> omega
    simp only [List.getElem_take, List.getElem_append_left hcore, Bool.and_eq_true] at hnew
    rw [h.shuffled_eq]
    exact h.sendCvi (List.getElem?_eq_getElem hcore) (Insn.cvi_of_cviNew hnew.1.2)
  · exact ⟨core, rfl, .rfl, h⟩

theorem Arranged.shuffleVops (h : Arranged bare core c) :
    ∃ core', Hex.shuffleVops (core ++ c) = core' ++ c ∧ core'.Perm core ∧ Arranged bare core' c := by
  obtain ⟨core₁, heq₁, hperm₁, h₁⟩ := h.shuffleVopsLoad
  obtain ⟨core₂, heq₂, hperm₂, h₂⟩ := h₁.shuffleVopsStore
  exact ⟨core₂, by rw [Hex.shuffleVops, heq₁, heq₂], hperm₂.trans hperm₁, h₂⟩

end Moved

section Operands

variable {bare : Bool}

/-- The same instruction, with other operands. -/
def Insn.SameKind (i j : Insn) : Prop := i.opcode = j.opcode ∧ i.part1 = j.part1

theorem Insn.SameKind.isExtender {i j : Insn} (h : i.SameKind j) : j.isExtender = i.isExtender := by
  unfold Insn.isExtender Insn.attrib
  rw [h.1]

theorem Insn.SameKind.endsLoop {i j : Insn} (h : i.SameKind j) : j.endsLoop = i.endsLoop := by
  unfold Insn.endsLoop
  rw [h.1]

theorem Insn.SameButRegno.sameKind {i j : Insn} (h : i.SameButRegno j) : i.SameKind j := ⟨h.opcode, h.part1⟩

theorem Insn.SameButRegno.isExtended {i j : Insn} (h : i.SameButRegno j) (hi : i.IsExtended) : j.IsExtended := by
  unfold Insn.IsExtended Insn.attrib
  rw [← h.opcode, ← h.extensionValid]
  exact hi

theorem forall₂_comp {R S : Insn → Insn → Prop} : ∀ {l m n : List Insn}, List.Forall₂ R l m → List.Forall₂ S m n →
    List.Forall₂ (fun i k => ∃ j, R i j ∧ S j k) l n
  | _, _, _, .nil, .nil => .nil
  | _, _, _, .cons h₁ t₁, .cons h₂ t₂ => .cons ⟨_, h₁, h₂⟩ (forall₂_comp t₁ t₂)

theorem sameButRegno_trans {l m n : List Insn} (h₁ : List.Forall₂ Insn.SameButRegno l m)
    (h₂ : List.Forall₂ Insn.SameButRegno m n) : List.Forall₂ Insn.SameButRegno l n :=
  (forall₂_comp h₁ h₂).imp fun _ _ ⟨_, h₁, h₂⟩ =>
    ⟨h₁.opcode.trans h₂.opcode, h₁.immed.trans h₂.immed, h₁.part1.trans h₂.part1,
      h₁.extensionValid.trans h₂.extensionValid⟩

theorem sameKind_trans {l m n : List Insn} (h₁ : List.Forall₂ Insn.SameKind l m)
    (h₂ : List.Forall₂ Insn.SameButRegno m n) : List.Forall₂ Insn.SameKind l n :=
  (forall₂_comp h₁ h₂).imp fun _ _ ⟨_, h₁, h₂⟩ => ⟨h₁.1.trans h₂.opcode, h₁.2.trans h₂.part1⟩

theorem exists_of_mem_forall₂ {R : Insn → Insn → Prop} : ∀ {l l' : List Insn}, List.Forall₂ R l l' → ∀ {j}, j ∈ l' →
    ∃ i ∈ l, R i j
  | _, _, .cons h t, j, hj => by
    rcases List.mem_cons.1 hj with rfl | hj
    · exact ⟨_, List.mem_cons_self, h⟩
    · obtain ⟨i, hi, hR⟩ := exists_of_mem_forall₂ t hj
      exact ⟨i, List.mem_cons_of_mem _ hi, hR⟩

theorem exists_of_forall₂_append {R : Insn → Insn → Prop} {b : List Insn} : ∀ {a l' : List Insn},
    List.Forall₂ R (a ++ b) l' → ∃ a' b', l' = a' ++ b' ∧ List.Forall₂ R a a' ∧ List.Forall₂ R b b'
  | [], l', h => ⟨[], l', rfl, .nil, h⟩
  | _ :: _, _, .cons h t => by
    obtain ⟨a', b', rfl, ha, hb⟩ := exists_of_forall₂_append t
    exact ⟨_ :: a', b', rfl, .cons h ha, hb⟩

theorem Followed.sameButRegno : ∀ {l l' : List Insn}, Followed bare l → List.Forall₂ Insn.SameButRegno l l' →
    Followed bare l'
  | _, _, h, .nil => h
  | i :: l, i' :: l', h, .cons hi hl => by
    refine ⟨fun he => ?_, Followed.sameButRegno h.2 hl⟩
    rcases h.1 (by rw [← hi.sameKind.isExtender]; exact he) with ⟨j, hj, hext⟩ | ⟨hb, hall⟩
    · cases hl with
      | nil => cases hj
      | cons hj' _ =>
        cases hj
        exact .inl ⟨_, rfl, hj'.isExtended hext⟩
    · refine .inr ⟨hb, fun j hj => ?_⟩
      obtain ⟨k, hk, hkj⟩ := exists_of_mem_forall₂ hl hj
      rw [hkj.sameKind.isExtender, hall k hk]

theorem Arranged.sameKind {core c l' : List Insn} (hpart1 : ∀ i ∈ core ++ c, i.part1 = false)
    (hnoLoop : ∀ i ∈ core, i.endsLoop = false) (hloop : LoopEnd c)
    (hs : List.Forall₂ Insn.SameKind (core ++ c) l') (hf : Followed bare l') :
    ∃ core' c', l' = core' ++ c' ∧ List.Forall₂ Insn.SameKind core core' ∧ List.Forall₂ Insn.SameKind c c' ∧
      Arranged bare core' c' := by
  obtain ⟨core', c', rfl, hcore, hc⟩ := exists_of_forall₂_append hs
  refine ⟨core', c', rfl, hcore, hc, fun j hj => ?_, fun j hj => ?_, ?_, hf⟩
  · obtain ⟨i, hi, hij⟩ := exists_of_mem_forall₂ hs hj
    rw [← hij.2, hpart1 i hi]
  · obtain ⟨i, hi, hij⟩ := exists_of_mem_forall₂ hcore hj
    rw [hij.endsLoop, hnoLoop i hi]
  · rcases hloop with rfl | ⟨e, rfl, he⟩
    · cases hc
      exact .inl rfl
    · cases hc with
      | cons hee' t =>
        cases t
        exact .inr ⟨_, rfl, by rw [hee'.endsLoop, he]⟩

end Operands

section Passes

variable {bare : Bool} {T : DecodeTables}

theorem applyExtender_some {e : BitVec 32} {i j : Insn} (h : applyExtender T e i = some j) :
    i.SameKind j ∧ j.IsExtended := by
  simp only [applyExtender, bind, Option.bind_eq_some_iff] at h
  obtain ⟨n, hn, h⟩ := h
  cases h
  refine ⟨⟨rfl, rfl⟩, ?_, rfl⟩
  unfold DecodeTables.whichExtended at hn
  split at hn
  · rename_i he
    exact he
  · cases hn

/-- What the extender before it makes of an instruction. -/
theorem extend_some {e : Option (BitVec 32)} {i j : Insn}
    (h : (match e with | none => some i | some e => applyExtender T e i) = some j) :
    i.SameKind j ∧ (e.isSome = true → j.IsExtended) ∧ (e = none → j = i) := by
  cases e with
  | none =>
    cases h
    exact ⟨⟨rfl, rfl⟩, nofun, fun _ => rfl⟩
  | some e =>
    have := applyExtender_some h
    exact ⟨this.1, fun _ => this.2, nofun⟩

theorem applyExtenders_cons {e : Option (BitVec 32)} {i : Insn} {l l' : List Insn}
    (h : applyExtenders T e (i :: l) = some l') :
    ∃ i', (match e with | none => some i | some e => applyExtender T e i) = some i' ∧
      ∃ l'', applyExtenders T (if i'.isExtender then some (i'.imm 0) else none) l = some l'' ∧
          some (i' :: l'') = some l' := by
  cases e with
  | none => simpa only [applyExtenders, bind, Option.bind_eq_some_iff] using h
  | some e => simpa only [applyExtenders, bind, Option.bind_eq_some_iff] using h

/-- After `decode_apply_extenders` every extender is followed by what it extends; with one left over at the end, the
list is bare. -/
theorem applyExtenders_followed : ∀ {e : Option (BitVec 32)} {l l' : List Insn}, applyExtenders T e l = some l' →
    (bare = true ∨ ∀ i ∈ l.getLast?, i.isExtender = false) →
    List.Forall₂ Insn.SameKind l l' ∧ Followed bare l' ∧ (e.isSome = true → ∀ j ∈ l'.head?, j.IsExtended)
  | none, [], l', h, _ => by
    cases h
    exact ⟨.nil, trivial, nofun⟩
  | some e, [], l', h, _ => by
    obtain ⟨-, -, rfl⟩ := Option.map_eq_some_iff.1 h
    exact ⟨.nil, trivial, nofun⟩
  | e, i :: l, l', h, hlast => by
    obtain ⟨i', hi, l'', hl, h⟩ := applyExtenders_cons h
    cases h
    obtain ⟨hkind, hext, -⟩ := extend_some hi
    have hlast' : bare = true ∨ ∀ i ∈ l.getLast?, i.isExtender = false := by
      refine hlast.imp id fun h j hj => h j ?_
      cases l with
      | nil => cases hj
      | cons k l => rwa [List.getLast?_cons_cons]
    obtain ⟨hall, hf, hhead⟩ := applyExtenders_followed hl hlast'
    refine ⟨.cons hkind hall, ⟨fun he => ?_, hf⟩, fun he j hj => ?_⟩
    · rw [if_pos he] at hhead
      cases hl'' : l''.head? with
      | some j => exact .inl ⟨j, rfl, hhead rfl j hl''⟩
      | none =>
        obtain rfl := List.head?_eq_none_iff.1 hl''
        cases hall
        rcases hlast with hb | hb
        · exact .inr ⟨hb, nofun⟩
        · exact absurd he (by rw [hkind.isExtender, hb i rfl]; decide)
    · cases hj
      exact hext he

theorem Insn.setRegno_same {i j : Insn} {n r : Nat} (h : i.setRegno n r = some j) : i.SameButRegno j := by
  unfold Insn.setRegno at h
  split at h
  · cases h
    exact ⟨rfl, rfl, rfl, rfl⟩
  · cases h

theorem forall₂_set {R : Insn → Insn → Prop} (hrefl : ∀ i, R i i) {j : Insn} : ∀ {l : List Insn} {n : Nat} {i : Insn},
    l[n]? = some i → R i j → List.Forall₂ R l (l.set n j)
  | _ :: l, 0, _, h, hR => by
    cases h
    exact .cons hR (List.forall₂_same.2 fun i _ => hrefl i)
  | i :: l, n + 1, _, h, hR => .cons (hrefl i) (forall₂_set hrefl (l := l) (n := n) h hR)

theorem fillStep_same {l l' : List Insn} {n : Nat} (h : fillStep l n = some l') :
    List.Forall₂ Insn.SameButRegno l l' := by
  have hrefl : ∀ i : Insn, i.SameButRegno i := fun _ => ⟨rfl, rfl, rfl, rfl⟩
  unfold fillStep at h
  split at h
  · cases h
    exact List.forall₂_same.2 fun i _ => hrefl i
  · rename_i x hx
    split at h
    · simp only [bind, Option.bind_eq_some_iff] at h
      obtain ⟨use, -, h⟩ := h
      split at h
      · cases h
      · simp only [Option.bind_eq_some_iff] at h
        obtain ⟨k, -, y, -, dst, -, x', hx', h⟩ := h
        cases h
        exact forall₂_set hrefl hx (Insn.setRegno_same hx')
    · cases h
      exact List.forall₂_same.2 fun i _ => hrefl i

theorem fillLoop_same : ∀ {n i : Nat} {l l' : List Insn}, fillLoop i n l = some l' →
    List.Forall₂ Insn.SameButRegno l l'
  | 0, _, l, l', h => by
    cases h
    exact List.forall₂_same.2 fun _ _ => ⟨rfl, rfl, rfl, rfl⟩
  | n + 1, i, l, l', h => by
    obtain ⟨m, hm, h⟩ := Option.bind_eq_some_iff.1 h
    exact sameButRegno_trans (fillStep_same hm) (fillLoop_same h)

/-- **What the passes over a complete packet leave**: the instructions with other operands, and in a packet of vector
instructions another order. -/
theorem finishPacket_some {l l' : List Insn} (h : finishPacket T l = some l') :
    ∃ l₁ l₂, applyExtenders T none l = some l₁ ∧ List.Forall₂ Insn.SameButRegno l₁ l₂ ∧
      (l' = l₂ ∨ l' = shuffleVops l₂) := by
  simp only [finishPacket, bind, Option.bind_eq_some_iff] at h
  obtain ⟨l₁, h₁, l₂, h₂, h⟩ := h
  have hsame := fillLoop_same h₂
  split at h
  · obtain ⟨l₃, h₃, h⟩ := Option.bind_eq_some_iff.1 h
    cases h
    exact ⟨l₁, l₃, h₁, sameButRegno_trans hsame (T.mmvecCheck_same l₂ l₃ h₃), .inr rfl⟩
  · cases h
    exact ⟨l₁, _, h₁, hsame, .inl rfl⟩

theorem finishPacket_arranged {core c l' : List Insn} (hpart1 : ∀ i ∈ core ++ c, i.part1 = false)
    (hnoLoop : ∀ i ∈ core, i.endsLoop = false) (hloop : LoopEnd c)
    (hlast : bare = true ∨ ∀ i ∈ (core ++ c).getLast?, i.isExtender = false)
    (h : finishPacket T (core ++ c) = some l') :
    ∃ core' c' l₁ l₂, l' = core' ++ c' ∧ Arranged bare core' c' ∧ applyExtenders T none (core ++ c) = some l₁ ∧
      List.Forall₂ Insn.SameKind (core ++ c) l₁ ∧ List.Forall₂ Insn.SameButRegno l₁ l₂ ∧ l'.Perm l₂ := by
  obtain ⟨l₁, l₂, h₁, h₂, h⟩ := finishPacket_some h
  obtain ⟨hk₁, hf₁, -⟩ := applyExtenders_followed h₁ hlast
  obtain ⟨core₂, c₂, hl₂, -, -, harr⟩ :=
    Arranged.sameKind hpart1 hnoLoop hloop (sameKind_trans hk₁ h₂) (hf₁.sameButRegno h₂)
  rcases h with rfl | rfl
  · exact ⟨core₂, c₂, l₁, l', hl₂, harr, h₁, hk₁, h₂, .rfl⟩
  · obtain ⟨core₃, heq, hperm, h₃⟩ := harr.shuffleVops
    refine ⟨core₃, c₂, l₁, l₂, by rw [hl₂, heq], h₃, h₁, hk₁, h₂, ?_⟩
    rw [hl₂, heq]
    exact hperm.append_right c₂

end Passes

end Hex
