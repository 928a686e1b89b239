import BinjaHexagon.DecodeSafe
import BinjaHexagon.Prepare
/-!
# VectorOrder — when decoding keeps the order of the words

`decode_shuffle_for_execution_vops` runs on every packet with a vector instruction, lifted or only printed.  The
instructions stay in place exactly where it has nothing to move.
-/
namespace Hex

namespace OpcodeRow

variable (o : OpcodeRow)

/-- A `.cur` or `.tmp` load. -/
def isVload : Bool := o.attrib .load && (o.attrib .cviNew || o.attrib .cviTmp)

/-- A `.new` store. -/
def isVstoreNew : Bool := o.attrib .store && o.attrib .cviNew && !o.attrib .cviScatterRelease

/-- What the tables say of vector opcodes. -/
structure VectorRow : Prop where
  not_sub : o.attrib .cvi = true → o.attrib .subinsn = false
  not_load : o.attrib .store = true → o.attrib .cviNew = true → o.attrib .load = false

instance : Decidable o.VectorRow := decidable_of_iff
  ((o.attrib .cvi = true → o.attrib .subinsn = false) ∧
    (o.attrib .store = true → o.attrib .cviNew = true → o.attrib .load = false))
  ⟨fun h => ⟨h.1, h.2⟩, fun h => ⟨h.not_sub, h.not_load⟩⟩

end OpcodeRow

/-- No vector instruction stands before the first `.cur` or `.tmp` load, and none behind the first `.new` store, unless
it is the same one, operands and all: exchanging the two changes nothing. -/
structure VectorsInPlace (is : List Insn) : Prop where
  load : ∀ a v b, is = a ++ v :: b → v.opcode.isVload = true → (∀ i ∈ a, i.opcode.isVload = false) →
    ∀ i ∈ a, i.attrib .cvi = false
  store : ∀ a s b, is = a ++ s :: b → s.opcode.isVstoreNew = true → (∀ i ∈ a, i.opcode.isVstoreNew = false) →
    ∀ i ∈ b, i = s

theorem vectorsInPlace_of_load {v : Insn} {is : List Insn} (hv : v.opcode.isVload = true)
    (hs : ∀ i ∈ v :: is, i.opcode.isVstoreNew = false) : VectorsInPlace (v :: is) := by
  refine ⟨fun a w b hos _ ha => ?_, fun a s b hos hn => ?_⟩
  · cases a with
    | nil => exact fun i hi => absurd hi List.not_mem_nil
    | cons x a =>
      obtain ⟨rfl, -⟩ := List.cons.inj hos
      rw [ha v List.mem_cons_self] at hv
      cases hv
  · rw [hs s (by rw [hos]; simp)] at hn
    cases hn

section Moves

variable {α β : Type}

theorem getElem?_sendInsnTo_between {l : List α} {i n k : Nat} (hi : i ≤ k) (hn : k < n) (hlen : i < l.length) :
    (sendInsnTo l i n)[k]? = l[k + 1]? := by
  unfold sendInsnTo
  rw [List.getElem?_eq_getElem hlen]
  exact (List.getElem?_insertIdx_of_lt hn).trans (List.getElem?_eraseIdx_of_ge hi)

theorem eq_of_cons_eq_concat {x : α} : ∀ {b : List α}, x :: b = b ++ [x] → ∀ y ∈ b, y = x
  | [], _, _, h => nomatch h
  | z :: b, h, y, hy => by
    rw [List.cons_append] at h
    obtain ⟨rfl, h⟩ := List.cons.inj h
    rcases List.mem_cons.1 hy with rfl | hy
    · rfl
    · exact eq_of_cons_eq_concat h y hy

theorem concat_eq_cons_of_all {x : α} : ∀ {b : List α}, (∀ y ∈ b, y = x) → b ++ [x] = x :: b
  | [], _ => rfl
  | z :: b, h => by
    obtain ⟨rfl, h⟩ := List.forall_mem_cons.1 h
    rw [List.cons_append, concat_eq_cons_of_all h]

theorem sendInsnTo_last {a b c : List α} {x : α} :
    sendInsnTo (a ++ x :: b ++ c) a.length ((a ++ x :: b).length - 1) = a ++ b ++ [x] ++ c := by
  have hlen : (a ++ x :: b).length - 1 = a.length + b.length := by
    rw [List.length_append, List.length_cons]
    omega
  rw [hlen, List.append_assoc, List.cons_append, sendInsnTo_append]
  simp

end Moves

section Shuffle

/-- Moving vector instructions brings what stands behind them forward. -/
theorem getElem?_moveCviToEnd {last : Nat} {v : Insn} : ∀ {n i : Nat} {l : List Insn}, i + n ≤ last → last < l.length →
    l[i + n]? = some v → ∃ k ≤ n, (moveCviToEnd last n i l)[i + n - k]? = some v ∧
      (k = 0 → ∀ j, i ≤ j → j < i + n → l[j]?.any (·.attrib .cvi) = false)
  | 0, i, l, _, _, h => ⟨0, Nat.le_refl _, h, fun _ j h₁ h₂ => by omega⟩
  | n + 1, i, l, hlast, hlen, h => by
    rw [moveCviToEnd]
    split
    · have hlen' : (sendInsnTo l i last).length = l.length := (sendInsnTo_perm hlen).length_eq
      have hat : (sendInsnTo l i last)[i + n]? = some v := by
        rw [getElem?_sendInsnTo_between (by omega) (by omega) (by omega)]
        exact h
      have hlast' : last < (sendInsnTo l i last).length := hlen' ▸ hlen
      obtain ⟨k, hk, hv, -⟩ := @getElem?_moveCviToEnd last v n i _ (by omega) hlast' hat
      refine ⟨k + 1, by omega, ?_, fun h => absurd h (Nat.succ_ne_zero k)⟩
      rw [show i + (n + 1) - (k + 1) = i + n - k by omega]
      exact hv
    · rename_i hno
      have hat : l[i + 1 + n]? = some v := by rw [show i + 1 + n = i + (n + 1) by omega]; exact h
      obtain ⟨k, hk, hv, hall⟩ := getElem?_moveCviToEnd (by omega) hlen hat
      refine ⟨k, by omega, by rw [show i + (n + 1) - k = i + 1 + n - k by omega]; exact hv, fun hk0 j h₁ h₂ => ?_⟩
      rcases Nat.eq_or_lt_of_le h₁ with rfl | hlt
      · simpa using hno
      · exact hall hk0 j hlt (by omega)

theorem moveCviToEnd_of_none {last : Nat} : ∀ {n i : Nat} {l : List Insn},
    (∀ j, i ≤ j → j < i + n → l[j]?.any (·.attrib .cvi) = false) → moveCviToEnd last n i l = l
  | 0, _, _, _ => rfl
  | n + 1, i, l, h => by
    rw [moveCviToEnd, if_neg (by rw [h i (Nat.le_refl _) (by omega)]; decide)]
    exact moveCviToEnd_of_none fun j h₁ h₂ => h j (by omega) (by omega)

theorem exists_first (q : Insn → Bool) (l : List Insn) :
    (∀ i ∈ l, q i = false) ∨ ∃ a v b, l = a ++ v :: b ∧ q v = true ∧ ∀ i ∈ a, q i = false := by
  cases hl : l.find? q with
  | none => exact .inl (by simpa using hl)
  | some v =>
    obtain ⟨hv, a, b, hab, ha⟩ := List.find?_eq_some_iff_append.1 hl
    exact .inr ⟨a, v, b, hab, hv, by simpa using ha⟩

theorem findIdx?_of_first {q : Insn → Bool} {a b : List Insn} {v : Insn} (hv : q v = true) (ha : ∀ i ∈ a, q i = false) :
    (a ++ v :: b).findIdx? q = some a.length := by
  rw [List.findIdx?_append, List.findIdx?_eq_none_iff.2 ha, List.findIdx?_cons, hv]
  simp

variable {core c a b : List Insn} {v : Insn} (harr : Arranged true core c)
include harr

theorem shuffleVopsLoad_none (h : ∀ i ∈ core, i.opcode.isVload = false) : shuffleVopsLoad (core ++ c) = core ++ c := by
  have hnone : (core ++ c).findIdx? (fun x => x.opcode.isVload) = none := by
    refine List.findIdx?_eq_none_iff.2 fun i hi => ?_
    rcases List.mem_append.1 hi with hi | hi
    · exact h i hi
    · rcases harr.loop with rfl | ⟨e, rfl, he⟩
      · cases hi
      · obtain rfl := List.mem_singleton.1 hi
        have hload : i.opcode.attrib .load = false := Insn.endsLoop_lacks he (by decide)
        rw [OpcodeRow.isVload, hload, Bool.false_and]
  unfold shuffleVopsLoad
  have heq : (core ++ c).findIdx? (fun x => x.attrib .load && (x.attrib .cviNew || x.attrib .cviTmp)) = none := hnone
  rw [heq]

theorem shuffleVopsLoad_first (hab : core = a ++ v :: b) (hv : v.opcode.isVload = true)
    (ha : ∀ i ∈ a, i.opcode.isVload = false) :
    shuffleVopsLoad (core ++ c) = moveCviToEnd (core.length - 1) a.length 0 (core ++ c) := by
  have hidx : (core ++ c).findIdx? (fun x => x.attrib .load && (x.attrib .cviNew || x.attrib .cviTmp)) =
      some a.length := by
    rw [hab, List.append_assoc, List.cons_append]
    exact @findIdx?_of_first (fun x => x.opcode.isVload) a (b ++ c) v hv ha
  unfold shuffleVopsLoad
  rw [hidx, harr.shuffled_eq]

theorem shuffleVopsStore_none (h : ∀ i ∈ core, i.opcode.isVstoreNew = false) :
    shuffleVopsStore (core ++ c) = core ++ c := by
  have hnone : (core ++ c).findIdx? (fun x => x.opcode.isVstoreNew) = none := by
    refine List.findIdx?_eq_none_iff.2 fun i hi => ?_
    rcases List.mem_append.1 hi with hi | hi
    · exact h i hi
    · rcases harr.loop with rfl | ⟨e, rfl, he⟩
      · cases hi
      · obtain rfl := List.mem_singleton.1 hi
        have hstore : i.opcode.attrib .store = false := Insn.endsLoop_lacks he (by decide)
        rw [OpcodeRow.isVstoreNew, hstore, Bool.false_and, Bool.false_and]
  unfold shuffleVopsStore
  have heq : (core ++ c).findIdx? (fun x => x.attrib .store && x.attrib .cviNew && !x.attrib .cviScatterRelease) =
    none := hnone
  rw [List.findIdx?_take, heq]
  rfl

theorem shuffleVopsStore_first (hab : core = a ++ v :: b) (hv : v.opcode.isVstoreNew = true)
    (ha : ∀ i ∈ a, i.opcode.isVstoreNew = false) : shuffleVopsStore (core ++ c) = a ++ b ++ [v] ++ c := by
  have hidx : (core ++ c).findIdx? (fun x => x.attrib .store && x.attrib .cviNew && !x.attrib .cviScatterRelease) =
      some a.length := by
    rw [hab, List.append_assoc, List.cons_append]
    exact @findIdx?_of_first (fun x => x.opcode.isVstoreNew) a (b ++ c) v hv ha
  have hlen : (core ++ c).length = a.length + b.length + 1 + c.length := by
    rw [hab]
    simp only [List.length_append, List.length_cons]
    omega
  unfold shuffleVopsStore
  rw [List.findIdx?_take, hidx, harr.shuffled_eq, Option.bind_some]
  by_cases hlt : a.length < (core ++ c).length - 1
  · rw [Option.guard_pos (by simpa using hlt), hab]
    exact sendInsnTo_last
  · obtain rfl : b = [] := List.eq_nil_of_length_eq_zero (by omega)
    rw [Option.guard_eq_none_iff.2 (by simpa using hlt), hab]
    simp

/-- The store pass moves one instruction back, so every other comes forward or stays. -/
theorem getElem?_shuffleVopsStore {m : Nat} (hm : (core ++ c)[m]? = some v) (hv : v.opcode.isVstoreNew = false) :
    ∃ k ≤ m, (shuffleVopsStore (core ++ c))[k]? = some v := by
  rcases exists_first (fun i => i.opcode.isVstoreNew) core with hnone | ⟨a, s, b, hab, hs, ha⟩
  · exact ⟨m, Nat.le_refl _, by rw [shuffleVopsStore_none harr hnone]; exact hm⟩
  · rw [shuffleVopsStore_first harr hab hs ha]
    rw [hab, List.append_assoc] at hm
    rcases Nat.lt_trichotomy m a.length with hlt | rfl | hgt
    · refine ⟨m, Nat.le_refl _, ?_⟩
      rw [List.getElem?_append_left hlt] at hm
      rw [List.append_assoc, List.append_assoc, List.getElem?_append_left hlt]
      exact hm
    · rw [List.getElem?_append_right (Nat.le_refl _), Nat.sub_self] at hm
      obtain rfl : s = v := Option.some.inj hm
      exact absurd hs (by rw [hv]; decide)
    · obtain ⟨j, rfl⟩ := Nat.exists_eq_add_of_lt hgt
      rw [List.getElem?_append_right (by omega), show a.length + j + 1 - a.length = j + 1 by omega,
        List.cons_append, List.getElem?_cons_succ] at hm
      by_cases hj : j < b.length
      · refine ⟨a.length + j, by omega, ?_⟩
        rw [List.getElem?_append_left hj] at hm
        rw [List.append_assoc, List.append_assoc, List.getElem?_append_right (by omega), Nat.add_sub_cancel_left,
          List.getElem?_append_left hj]
        exact hm
      · refine ⟨a.length + j + 1, Nat.le_refl _, ?_⟩
        have hlen : (a ++ b ++ [s]).length = a.length + b.length + 1 := by simp [Nat.add_assoc]
        rw [List.getElem?_append_right (by omega)] at hm
        rw [List.getElem?_append_right (by omega), hlen,
          show a.length + j + 1 - (a.length + b.length + 1) = j - b.length by omega]
        exact hm

/-- **The vector passes keep the instructions in place exactly where none has to move.** -/
theorem shuffleVops_eq_iff (hrows : ∀ i ∈ core, i.opcode.VectorRow) :
    shuffleVops (core ++ c) = core ++ c ↔ VectorsInPlace core := by
  have hloads : ∀ {a b v}, core = a ++ v :: b → v.opcode.isVload = true → (∀ i ∈ a, i.opcode.isVload = false) →
      (∀ i ∈ a, i.attrib .cvi = false) → shuffleVopsLoad (core ++ c) = core ++ c := fun {a b v} hab hv ha hcvi => by
    rw [shuffleVopsLoad_first harr hab hv ha]
    refine moveCviToEnd_of_none fun j _ hj => ?_
    rw [Nat.zero_add] at hj
    rw [hab, List.append_assoc, List.getElem?_append_left hj, List.getElem?_eq_getElem hj, Option.any_some]
    exact hcvi _ (List.getElem_mem hj)
  constructor
  · intro heq
    -- A load that came forward stands where another instruction was.
    have hload : ∀ {a b v}, core = a ++ v :: b → v.opcode.isVload = true → (∀ i ∈ a, i.opcode.isVload = false) →
        ∀ i ∈ a, i.attrib .cvi = false := fun {a b v} hab hv ha => by
      have hvstore : v.opcode.isVstoreNew = false := by
        have hrow := hrows v (by rw [hab]; simp)
        unfold OpcodeRow.isVstoreNew
        unfold OpcodeRow.isVload at hv
        cases hs : v.opcode.attrib .store with
        | false => rfl
        | true =>
          cases hn : v.opcode.attrib .cviNew with
          | false => rfl
          | true =>
            rw [hrow.not_load hs hn, Bool.false_and] at hv
            cases hv
      have hat : (core ++ c)[0 + a.length]? = some v := by
        rw [hab, Nat.zero_add, List.append_assoc, List.cons_append, List.getElem?_append_right (Nat.le_refl _),
          Nat.sub_self]
        rfl
      have hlen : core.length = a.length + b.length + 1 := by
        rw [hab, List.length_append, List.length_cons]
        omega
      obtain ⟨k, hk, hmoved, hall⟩ := @getElem?_moveCviToEnd (core.length - 1) v a.length 0 (core ++ c) (by omega)
        (by rw [List.length_append]; omega) hat
      rw [← shuffleVopsLoad_first harr hab hv ha] at hmoved
      obtain ⟨core', hV, -, harr'⟩ := harr.shuffleVopsLoad
      rw [hV] at hmoved
      obtain ⟨m, hm, hfinal⟩ := getElem?_shuffleVopsStore harr' hmoved hvstore
      have hk0 : k = 0 := by
        by_contra hne
        have hmlt : m < a.length := by omega
        have hsame := congrArg (·[m]?) heq
        rw [shuffleVops, hV, hfinal, hab, List.append_assoc, List.getElem?_append_left hmlt,
          List.getElem?_eq_getElem hmlt] at hsame
        have hno := ha _ (List.getElem_mem hmlt)
        rw [← Option.some.inj hsame, hv] at hno
        cases hno
      intro i hi
      obtain ⟨j, hj, rfl⟩ := List.getElem_of_mem hi
      have hjth := hall hk0 j (Nat.zero_le _) (by omega)
      rw [hab, List.append_assoc, List.getElem?_append_left hj, List.getElem?_eq_getElem hj] at hjth
      exact hjth
    have hV : shuffleVopsLoad (core ++ c) = core ++ c := by
      rcases exists_first (fun i => i.opcode.isVload) core with hnone | ⟨a, v, b, hab, hv, ha⟩
      · exact shuffleVopsLoad_none harr hnone
      · exact hloads hab hv ha (hload hab hv ha)
    rw [shuffleVops, hV] at heq
    refine ⟨fun a v b hab hv ha => hload hab hv ha, fun a s b hab hs ha => ?_⟩
    rw [shuffleVopsStore_first harr hab hs ha, hab] at heq
    have hrot := List.append_cancel_right heq
    rw [List.append_assoc] at hrot
    exact eq_of_cons_eq_concat (List.append_cancel_left hrot).symm
  · intro h
    have hV : shuffleVopsLoad (core ++ c) = core ++ c := by
      rcases exists_first (fun i => i.opcode.isVload) core with hnone | ⟨a, v, b, hab, hv, ha⟩
      · exact shuffleVopsLoad_none harr hnone
      · exact hloads hab hv ha (h.load a v b hab hv ha)
    rw [shuffleVops, hV]
    rcases exists_first (fun i => i.opcode.isVstoreNew) core with hnone | ⟨a, s, b, hab, hs, ha⟩
    · exact shuffleVopsStore_none harr hnone
    · rw [shuffleVopsStore_first harr hab hs ha, hab, List.append_assoc a b [s],
        concat_eq_cons_of_all (h.store a s b hab hs ha)]

end Shuffle

section Halves

/-- The halves of a duplex stand side by side. -/
inductive Paired : List Insn → Prop
  | nil : Paired []
  | word {i : Insn} {l : List Insn} (hi : i.isSubInsn = false) (hl : Paired l) : Paired (i :: l)
  | duplex {b a : Insn} {l : List Insn} (hb : b.isSubInsn = true) (ha : a.isSubInsn = true) (hl : Paired l) :
      Paired (b :: a :: l)

theorem Paired.concat {x : Insn} (hx : x.isSubInsn = false) : ∀ {l : List Insn}, Paired l → Paired (l ++ [x])
  | _, .nil => .word hx .nil
  | _, .word hi hl => .word hi (hl.concat hx)
  | _, .duplex hb ha hl => .duplex hb ha (hl.concat hx)

theorem Paired.remove {x : Insn} (hx : x.isSubInsn = false) {b : List Insn} : ∀ {a : List Insn},
    Paired (a ++ x :: b) → Paired (a ++ b)
  | [], h => by
    cases h with
    | word _ hl => exact hl
    | duplex hb => rw [hx] at hb; cases hb
  | [y], h => by
    cases h with
    | word hy hl => exact .word hy (hl.remove (a := []) hx)
    | duplex _ ha => rw [hx] at ha; cases ha
  | y :: z :: a, h => by
    cases h with
    | word hy hl => exact .word hy (hl.remove (a := z :: a) hx)
    | duplex hb ha hl => exact .duplex hb ha (hl.remove hx)

theorem Paired.sameKind {l l' : List Insn} (h : Paired l) (hk : List.Forall₂ Insn.SameKind l l') : Paired l' := by
  have hsub : ∀ {i j : Insn}, i.SameKind j → j.isSubInsn = i.isSubInsn := fun hij => by
    rw [Insn.isSubInsn, Insn.isSubInsn, Insn.attrib, ← hij.1, Insn.attrib]
  induction h generalizing l' with
  | nil =>
    cases hk
    exact .nil
  | word hi _ ih =>
    cases hk with
    | cons hij hl => exact .word (by rw [hsub hij, hi]) (ih hl)
  | duplex hb ha _ ih =>
    cases hk with
    | cons hij hl =>
      cases hl with
      | cons hij' hl => exact .duplex (by rw [hsub hij, hb]) (by rw [hsub hij', ha]) (ih hl)

theorem gather_paired {T : DecodeTables} : ∀ {words : List (BitVec 32)} {ext : Bool} {n : Nat},
    (gather T ext n words).stop = .ended → Paired (gather T ext n words).insn
  | [], _, _, h => nomatch h
  | w :: ws, ext, n, h => by
    rcases hd : T.decodeInsns ext n w with ⟨writes, _ | is⟩
    · rw [gather_failed hd] at h
      cases h
    · cases hw : isPacketEnd w with
      | true =>
        rcases decodeInsns_some hd with ⟨i, rfl, hi, -⟩ | ⟨-, b, a, rfl, hb, ha, -⟩
        · rw [gather_end hd hw]
          exact .word hi.isSubInsn .nil
        · rw [gather_end hd hw]
          exact .duplex hb.isSubInsn ha.isSubInsn .nil
      | false =>
        rcases decodeInsns_some hd with ⟨i, rfl, hi, -⟩ | ⟨h0, -⟩
        · rw [gather_next hd hw] at h ⊢
          exact .word hi.isSubInsn (gather_paired h)
        · exact absurd h0 (not_isPacketEnd hw)

end Halves

section Sends

variable {core c : List Insn} (P : List Insn → Prop)
  (hstep : ∀ a x b, x.attrib .cvi = true → P (a ++ x :: b) → P (a ++ b ++ [x]))
include hstep

theorem sendCvi_keeps {i : Nat} {x : Insn} (hx : core[i]? = some x) (hcvi : x.attrib .cvi = true) (h : P core) :
    ∃ core', sendInsnTo (core ++ c) i (core.length - 1) = core' ++ c ∧ core'.length = core.length ∧ P core' := by
  obtain ⟨hi, rfl⟩ := List.getElem?_eq_some_iff.1 hx
  have hcut : core = core.take i ++ core[i] :: core.drop (i + 1) := by
    rw [← List.drop_eq_getElem_cons hi, List.take_append_drop]
  have hlen : (core.take i).length = i := List.length_take_of_le (Nat.le_of_lt hi)
  have hsend := @sendInsnTo_last _ (core.take i) (core.drop (i + 1)) c core[i]
  rw [← hcut, hlen] at hsend
  refine ⟨_, hsend, ?_, hstep _ _ _ hcvi (hcut ▸ h)⟩
  conv_rhs => rw [hcut]
  simp only [List.length_append, List.length_cons, List.length_nil]
  omega

theorem moveCviToEnd_keeps : ∀ {n i : Nat} {core : List Insn}, i + n < core.length → P core →
    ∃ core', moveCviToEnd (core.length - 1) n i (core ++ c) = core' ++ c ∧ core'.length = core.length ∧ P core'
  | 0, _, core, _, h => ⟨core, rfl, rfl, h⟩
  | n + 1, i, core, hlt, h => by
    have hget : (core ++ c)[i]? = core[i]? := List.getElem?_append_left (by omega)
    rw [moveCviToEnd, hget]
    split
    · rename_i hcvi
      obtain ⟨x, hx, hcvi⟩ := (Option.any_eq_true _ _).1 hcvi
      obtain ⟨core₁, heq, hlen, h₁⟩ := sendCvi_keeps P hstep (c := c) hx hcvi h
      obtain ⟨core₂, heq₂, hlen₂, h₂⟩ := @moveCviToEnd_keeps n i core₁ (by omega) h₁
      rw [hlen] at heq₂
      exact ⟨core₂, by rw [heq, heq₂], by omega, h₂⟩
    · exact moveCviToEnd_keeps (by omega) h

/-- What every send of a vector instruction to the end keeps, the vector passes keep. -/
theorem shuffleVops_keeps (harr : Arranged true core c) (h : P core) :
    ∃ core', shuffleVops (core ++ c) = core' ++ c ∧ P core' := by
  have hload : ∃ core', shuffleVopsLoad (core ++ c) = core' ++ c ∧ P core' := by
    rcases exists_first (fun i => i.opcode.isVload) core with hnone | ⟨a, v, b, hab, hv, ha⟩
    · exact ⟨core, shuffleVopsLoad_none harr hnone, h⟩
    · have hlen : 0 + a.length < core.length := by
        rw [hab, List.length_append, List.length_cons]
        omega
      obtain ⟨core', heq, -, h'⟩ := moveCviToEnd_keeps P hstep (c := c) hlen h
      exact ⟨core', by rw [shuffleVopsLoad_first harr hab hv ha, heq], h'⟩
  obtain ⟨core₁, heq, h₁⟩ := hload
  obtain ⟨core', heq', -, harr₁⟩ := harr.shuffleVopsLoad
  obtain rfl : core₁ = core' := List.append_cancel_right (heq.symm.trans heq')
  rw [shuffleVops, heq]
  rcases exists_first (fun i => i.opcode.isVstoreNew) core₁ with hnone | ⟨a, s, b, rfl, hs, ha⟩
  · exact ⟨core₁, shuffleVopsStore_none harr₁ hnone, h₁⟩
  · refine ⟨_, shuffleVopsStore_first harr₁ rfl hs ha, hstep a s b ?_ h₁⟩
    simp only [OpcodeRow.isVstoreNew, Bool.and_eq_true] at hs
    exact Insn.cvi_of_cviNew hs.1.2

end Sends

section Order

variable {T : DecodeTables} {words : List (BitVec 32)} {p : Packet}

/-- The passes over a complete packet that leave every instruction in its place: an extender's bits go into the constant
behind it, a `.new` operand becomes the register its producer writes. -/
def completeOperands (T : DecodeTables) (l : List Insn) : Option (List Insn) := do
  let l ← applyExtenders T none l
  let l ← fillNewvalueRegno l
  if l.any (·.attrib .extension) then T.mmvecCheck l else some l

/-- The instructions in the order of the words they are decoded from, with all their operands; the endloop has no
word. -/
def wordInsns (T : DecodeTables) (words : List (BitVec 32)) : List Insn :=
  let g := gather T false 0 (words.take (maxWords words.length))
  ((completeOperands T (g.insn ++ (endloopInsn words g.read).toList)).getD []).filter fun i => !i.endsLoop

theorem finishPacket_order {l l' : List Insn} (h : finishPacket T l = some l') :
    ∃ l₂, completeOperands T l = some l₂ ∧ List.Forall₂ Insn.SameKind l l₂ ∧ Followed true l₂ ∧
      l' = if l₂.any (·.attrib .extension) then shuffleVops l₂ else l₂ := by
  simp only [finishPacket, bind, Option.bind_eq_some_iff] at h
  obtain ⟨l₁, h₁, l₂, h₂, h⟩ := h
  obtain ⟨hk₁, hf₁, -⟩ := @applyExtenders_followed true T none l l₁ h₁ (.inl rfl)
  have hcomplete : completeOperands T l = if l₂.any (·.attrib .extension) then T.mmvecCheck l₂ else some l₂ := by
    simp only [completeOperands, bind, h₁, h₂, Option.bind_some]
  have hany : ∀ {a b : List Insn}, List.Forall₂ Insn.SameButRegno a b →
      b.any (·.attrib .extension) = a.any (·.attrib .extension) := fun hab => by
    induction hab with
    | nil => rfl
    | cons hij _ ih => rw [List.any_cons, List.any_cons, ih, Insn.attrib, ← hij.opcode, Insn.attrib]
  split at h
  · rename_i hext
    obtain ⟨l₃, h₃, h⟩ := Option.bind_eq_some_iff.1 h
    cases h
    have hsame₃ := T.mmvecCheck_same l₂ l₃ h₃
    have hsame := sameButRegno_trans (fillLoop_same h₂) hsame₃
    exact ⟨l₃, by rw [hcomplete, if_pos hext, h₃], sameKind_trans hk₁ hsame, hf₁.sameButRegno hsame,
      by rw [hany hsame₃, hext, if_pos rfl]⟩
  · rename_i hext
    cases h
    exact ⟨_, by rw [hcomplete, if_neg hext], sameKind_trans hk₁ (fillLoop_same h₂),
      hf₁.sameButRegno (fillLoop_same h₂), (if_neg hext).symm⟩

theorem map_opcode_sameKind {l l' : List Insn} (h : List.Forall₂ Insn.SameKind l l') :
    l'.map (·.opcode) = l.map (·.opcode) := by
  induction h with
  | nil => rfl
  | cons hij _ ih => rw [List.map_cons, List.map_cons, ih, hij.1]

theorem insnBytes_perm {l l' : List Insn} (h : (l.map (·.opcode)).Perm (l'.map (·.opcode))) :
    insnBytes l = insnBytes l' := by
  have hsize : ∀ l : List Insn, insnBytes l =
      ((l.map (·.opcode)).map fun o => if o.attrib .subinsn then 2 else 4).sum := fun l => by
    rw [List.map_map]
    rfl
  rw [hsize, hsize]
  exact List.Perm.sum_nat (h.map _)

/-- A packet that is returned: the instructions of the words, then the endloop. -/
structure PacketOrder (T : DecodeTables) (words : List (BitVec 32)) (p : Packet) (core c : List Insn) : Prop where
  insn : p.insn = core ++ c
  arranged : Arranged true core c
  perm : core.Perm (wordInsns T words)
  max : p.insn.length ≤ instructionsMax
  cof : p.pktHasCof = hasCof p.insn
  bytes : insnBytes core = p.encodPktSizeInBytes
  read : p.encodPktSizeInBytes = 4 * (gather T false 0 (words.take (maxWords words.length))).read
  endloop : c.map (·.opcode) = (endloopInsn words (p.encodPktSizeInBytes / 4)).toList.map (·.opcode)
  paired : (∀ i ∈ p.insn, i.opcode.VectorRow) → Paired core
  order : (∀ i ∈ p.insn, i.opcode.VectorRow) → (core = wordInsns T words ↔
    (p.insn.any (·.attrib .extension) = true → VectorsInPlace (wordInsns T words)))

/-- What the vector passes send to the end is no half of a duplex. -/
theorem shuffleVops_paired {core core' c : List Insn} (harr : Arranged true core c)
    (hrows : ∀ i ∈ core, i.opcode.VectorRow) (hp : Paired core) (heq : shuffleVops (core ++ c) = core' ++ c) :
    Paired core' := by
  obtain ⟨core'', heq', hpair, -⟩ := shuffleVops_keeps (fun l => Paired l ∧ l.Perm core) (fun a x b hx h => by
    have hmid : (a ++ b ++ [x]).Perm (a ++ x :: b) := by
      rw [List.append_assoc]
      exact (List.perm_append_comm).append_left a
    have hsub : x.isSubInsn = false := (hrows x (h.2.mem_iff.1 (by simp))).not_sub hx
    exact ⟨(h.1.remove hsub).concat hsub, hmid.trans h.2⟩) harr ⟨hp, .rfl⟩
  obtain rfl : core' = core'' := List.append_cancel_right (heq.symm.trans heq')
  exact hpair

theorem decodePacket_order (h : (decodePacket T words).outcome = .packet p)
    (hw : InArray (decodePacket T words).writes) :
    ∃ core c, PacketOrder T words p core c := by
  obtain ⟨pre, last, rest, g, rfl, hspan, hg, hgather, hfin⟩ := decodePacket_packet h
  obtain ⟨hl, hcof, hsize⟩ := finish_packet hfin
  have hwrites := inArray_decodePacket.1 hw
  rw [hgather] at hwrites
  have hmax := hg.length_encoded_le _ hwrites.1 hwrites.2
  rw [← hg.length_eq _ hl] at hmax
  have hlt := (hg.length_lt hwrites.1).1
  simp only [instructionsMax] at hlt
  have hread : p.encodPktSizeInBytes = 4 * g.read := by
    rw [hsize, hg.collected.read]
    omega
  obtain ⟨l₂, hcomplete, hkind, hf, hp⟩ := finishPacket_order hl
  obtain ⟨core₂, c₂, rfl, hcore, hc, harr₂⟩ := Arranged.sameKind (hg.encoded_facts _).2.1 hg.collected.noLoop
    (loopEnd_endloopInsn (pre ++ last :: rest) g.read) hkind hf
  have hops : core₂.map (·.opcode) = g.insn.map (·.opcode) := map_opcode_sameKind hcore
  have hinsns : wordInsns T (pre ++ last :: rest) = core₂ := by
    have hsome : completeOperands T (g.insn ++ (endloopInsn (pre ++ last :: rest) g.read).toList) =
        some (core₂ ++ c₂) :=
      hcomplete
    unfold wordInsns
    rw [hgather]
    dsimp only
    rw [hsome, Option.getD_some, harr₂.filter_noLoop]
  obtain ⟨core', heq, hperm, harr'⟩ := harr₂.shuffleVops
  have hend : c₂.map (·.opcode) =
      (endloopInsn (pre ++ last :: rest) (p.encodPktSizeInBytes / 4)).toList.map (·.opcode) := by
    rw [hread, Nat.mul_div_cancel_left _ (by decide)]
    exact map_opcode_sameKind hc
  have hstop : Paired g.insn := by
    have hg' := hg.collected.stop
    rw [← hgather] at hg' ⊢
    exact gather_paired hg'
  have hpair₂ : Paired core₂ := hstop.sameKind hcore
  have hmk : ∀ {core : List Insn}, p.insn = core ++ c₂ → core.Perm core₂ → Arranged true core c₂ →
      ((∀ i ∈ p.insn, i.opcode.VectorRow) → Paired core) →
      ((∀ i ∈ p.insn, i.opcode.VectorRow) → (core = wordInsns T (pre ++ last :: rest) ↔
        (p.insn.any (·.attrib .extension) = true → VectorsInPlace (wordInsns T (pre ++ last :: rest))))) →
      ∃ core c, PacketOrder T (pre ++ last :: rest) p core c := fun {core} hinsn hpm harr hpair hord => by
    have hpm' : (core.map (·.opcode)).Perm (g.insn.map (·.opcode)) := hops ▸ hpm.map _
    refine ⟨core, c₂, hinsn, harr, by rw [hinsns]; exact hpm, hmax, hcof, ?_, by rw [hgather]; exact hread, hend, hpair,
      hord⟩
    rw [insnBytes_perm hpm', hg.collected.bytes, hread]
  cases hext : (core₂ ++ c₂).any (·.attrib .extension) with
  | false =>
    rw [hext, if_neg Bool.false_ne_true] at hp
    refine hmk hp .rfl harr₂ (fun _ => hpair₂) fun _ => ?_
    rw [hp, hext, hinsns]
    exact ⟨fun _ h => absurd h Bool.false_ne_true, fun _ => rfl⟩
  | true =>
    rw [hext, if_pos rfl, heq] at hp
    have hmem : ∀ {i}, i ∈ core₂ → i ∈ p.insn := fun hi => by
      rw [hp]
      exact List.mem_append_left _ (hperm.mem_iff.2 hi)
    refine hmk hp hperm harr' (fun hrows => ?_) fun hrows => ?_
    · exact shuffleVops_paired harr₂ (fun i hi => hrows i (hmem hi)) hpair₂ heq
    have hany : p.insn.any (·.attrib .extension) = true := by
      obtain ⟨i, hi, he⟩ := List.any_eq_true.1 hext
      rw [hp]
      exact List.any_eq_true.2 ⟨i, ((hperm.append_right c₂).mem_iff).2 hi, he⟩
    have hiff := shuffleVops_eq_iff harr₂ fun i hi => hrows i (hmem hi)
    rw [heq, List.append_cancel_right_eq] at hiff
    rw [hany, hinsns, hiff]
    exact ⟨fun h _ => h, fun h => h rfl⟩

end Order

end Hex
