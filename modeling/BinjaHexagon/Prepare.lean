import BinjaHexagon.Decode
/-!
# Prepare — what the preparation of a packet keeps

The passes only move instructions: each is a permutation, and a prepared instruction is a decoded one, or the compare
half of one.
-/
namespace Hex

theorem sendInsnTo_perm {α : Type} {l : List α} {start newloc : Nat} (h : newloc < l.length) :
    (sendInsnTo l start newloc).Perm l := by
  unfold sendInsnTo
  cases hs : l[start]? with
  | none => exact .rfl
  | some a =>
    obtain ⟨hlt, rfl⟩ := List.getElem?_eq_some_iff.1 hs
    have hlen : newloc ≤ (l.eraseIdx start).length := by rw [List.length_eraseIdx, if_pos hlt]; omega
    exact (List.perm_insertIdx _ _ hlen).trans (List.getElem_cons_eraseIdx_perm hlt)

theorem storeStep_perm {n i : Nat} {st : StorePass} (h : n ≤ st.insn.length) :
    (storeStep n i st).insn.Perm st.insn := by
  unfold storeStep
  cases hi : st.insn[i]? with
  | none => exact .rfl
  | some x =>
    have hlt : i < st.insn.length := (List.getElem?_eq_some_iff.1 hi).1
    simp only
    split
    · exact sendInsnTo_perm (by omega)
    · split
      · exact .rfl
      · split
        · exact .rfl
        · split <;> exact .rfl

theorem storeLoop_perm {n : Nat} : ∀ {i : Nat} {st : StorePass}, n ≤ st.insn.length →
    (storeLoop n i st).insn.Perm st.insn
  | 0, _, _ => .rfl
  | i + 1, st, h => by
    have hs := storeStep_perm (i := i) h
    rw [storeLoop]
    exact (storeLoop_perm (by rw [hs.length_eq]; exact h)).trans hs

theorem compareStep_perm {i : Nat} {st : ComparePass} : (compareStep i st).insn.Perm st.insn := by
  unfold compareStep
  cases hi : st.insn[i]? with
  | none => exact .rfl
  | some x =>
    have hlt : i < st.insn.length := (List.getElem?_eq_some_iff.1 hi).1
    simp only
    split
    · split
      · exact sendInsnTo_perm (by omega)
      · exact .rfl
    · exact .rfl

theorem compareLoop_perm : ∀ {n i : Nat} {st : ComparePass}, (compareLoop i n st).insn.Perm st.insn
  | 0, _, _ => .rfl
  | n + 1, _, _ => (compareLoop_perm (n := n)).trans compareStep_perm

theorem shuffleLoop_perm {n : Nat} : ∀ {fuel : Nat} {l l' : List Insn}, n ≤ l.length →
    shuffleLoop n fuel l = some l' → l'.Perm l
  | 0, _, _, _, h => by cases h
  | fuel + 1, l, l', hn, h => by
    have hs : (storePass n l).insn.Perm l := storeLoop_perm hn
    have hc : (comparePass n (storePass n l).insn).insn.Perm (storePass n l).insn := compareLoop_perm
    unfold shuffleLoop at h
    simp only at h
    split at h
    · exact (shuffleLoop_perm (by rw [hs.length_eq]; exact hn) h).trans hs
    · split at h
      · exact (shuffleLoop_perm (by rw [hc.length_eq, hs.length_eq]; exact hn) h).trans (hc.trans hs)
      · cases h; exact hc.trans hs

theorem sendFirstToEnd_perm (p : Insn → Bool) (n : Nat) {l : List Insn} (h : n ≤ l.length) :
    (sendFirstToEnd p n l).Perm l := by
  unfold sendFirstToEnd
  cases hi : (l.take (n - 1)).findIdx? p with
  | none => exact .rfl
  | some i =>
    have hlt : i < (l.take (n - 1)).length := by
      obtain ⟨h, -⟩ := List.findIdx?_eq_some_iff_findIdx_eq.1 hi
      exact h
    rw [List.length_take] at hlt
    exact sendInsnTo_perm (by omega)

theorem shuffled_le (l : List Insn) : shuffled l ≤ l.length := by
  unfold shuffled
  split
  · split <;> omega
  · omega

theorem shuffleForExecution_perm {fuel : Nat} {l l' : List Insn} (h : shuffleForExecution fuel l = some l') :
    l'.Perm l := by
  simp only [shuffleForExecution, bind, Option.bind_eq_some_iff] at h
  obtain ⟨m, hm, h⟩ := h
  cases h
  have h1 := shuffleLoop_perm (shuffled_le l) hm
  have h2 := sendFirstToEnd_perm (·.attrib .dotnewvalue) (shuffled l) (by rw [h1.length_eq]; exact shuffled_le l)
  exact (sendFirstToEnd_perm _ _ (by rw [h2.length_eq, h1.length_eq]; exact shuffled_le l)).trans (h2.trans h1)

theorem part1ToFront_perm : ∀ {n i : Nat} {l : List Insn}, (part1ToFront i n l).Perm l
  | 0, _, _ => .rfl
  | n + 1, i, l => by
    unfold part1ToFront
    refine (part1ToFront_perm (n := n)).trans ?_
    cases hi : l[i]? with
    | none => exact .rfl
    | some x =>
      have hlt : i < l.length := (List.getElem?_eq_some_iff.1 hi).1
      split
      · exact sendInsnTo_perm (by omega)
      · exact .rfl

theorem mem_removeExtenders : ∀ {l : List Insn} {i : Insn}, i ∈ removeExtenders l → i ∈ l
  | [], _, h => h
  | [j], i, h => by
    unfold removeExtenders at h
    split at h
    · exact absurd h List.not_mem_nil
    · exact h
  | j :: k :: l, i, h => by
    unfold removeExtenders at h
    split at h
    · rcases List.mem_cons.1 h with rfl | h
      · simp
      · exact List.mem_cons_of_mem _ (List.mem_cons_of_mem _ (mem_removeExtenders h))
    · rcases List.mem_cons.1 h with rfl | h
      · simp
      · exact List.mem_cons_of_mem _ (mem_removeExtenders h)

/-- **A prepared instruction is a decoded one**, up to the mark of a compound jump's compare half. -/
theorem mem_preparePacket {l is : List Insn} (h : preparePacketForLifting l = some is) {i : Insn} (hi : i ∈ is) :
    ∃ j ∈ l, ∃ b, i = { j with part1 := b } := by
  simp only [preparePacketForLifting, bind, Option.bind_eq_some_iff] at h
  obtain ⟨m, hm, h⟩ := h
  unfold splitCmpjump at h
  simp only at h
  split at h
  · cases h
    have hmem : ∀ {j}, j ∈ m → j ∈ l := fun hj => mem_removeExtenders ((shuffleForExecution_perm hm).mem_iff.1 hj)
    rcases List.mem_append.1 (part1ToFront_perm.mem_iff.1 hi) with hi | hi
    · obtain ⟨j, hj, rfl⟩ := List.mem_map.1 hi
      refine ⟨j, hmem hj, ?_⟩
      split
      · exact ⟨false, rfl⟩
      · exact ⟨j.part1, rfl⟩
    · obtain ⟨j, hj, rfl⟩ := List.mem_map.1 hi
      exact ⟨j, hmem (List.mem_of_mem_filter hj), true, rfl⟩
  · cases h

theorem length_preparePacket {l is : List Insn} (h : preparePacketForLifting l = some is) :
    is.length ≤ instructionsMax := by
  simp only [preparePacketForLifting, bind, Option.bind_eq_some_iff] at h
  obtain ⟨m, -, h⟩ := h
  unfold splitCmpjump at h
  simp only at h
  split at h
  · cases h
    rwa [part1ToFront_perm.length_eq]
  · cases h

end Hex
