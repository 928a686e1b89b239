import BinjaHexagon.DecodeShape
import BinjaHexagon.Prepare
import Mathlib.Data.List.Count
/-!
# ShufflePasses — the two passes of the shuffle, as scans

The store pass touches only what stands behind the instruction it looks at, the compare pass only what stands before it:
each is a recursion over the list.  A round that changes something sends a store back over an instruction that is no
store, or a compare forward over one that is no compare, so the rounds come to an end: for two predicates, how often an
element of the first stands before one of the second (`Inversions`) falls with each move.
-/
namespace Inversions

variable {α : Type} (p q : α → Bool)

/-- **The pairs of an element of `p` before an element of `q`.** -/
def inversions : List α → Nat
  | [] => 0
  | x :: l => (if p x then l.countP q else 0) + inversions l

theorem inversions_append (b : List α) : ∀ a : List α,
    inversions p q (a ++ b) = inversions p q a + a.countP p * b.countP q + inversions p q b
  | [] => by simp [inversions]
  | x :: a => by
    rw [List.cons_append, inversions, inversions, inversions_append b a, List.countP_append, List.countP_cons]
    cases hp : p x
    · simp
    · simp [Nat.add_mul]
      omega

/-- What moving an element over the list `b` changes. -/
theorem inversions_move (a b c : List α) (x : α) :
    inversions p q (a ++ b ++ x :: c) + (if p x then b.countP q else 0) =
      inversions p q (a ++ x :: (b ++ c)) + if q x then b.countP p else 0 := by
  have hx : ∀ l : List α, inversions p q (x :: l) = (if p x then l.countP q else 0) + inversions p q l := fun _ => rfl
  simp only [inversions_append, hx, List.countP_append, List.countP_cons]
  cases hp : p x <;> cases hq : q x <;> simp [Nat.mul_add, Nat.add_mul] <;> omega

theorem inversions_le : ∀ l : List α, inversions p q l ≤ l.length * l.length
  | [] => Nat.le_refl _
  | x :: l => by
    have ih := inversions_le l
    have hq : l.countP q ≤ l.length := List.countP_le_length
    have hsq : (l.length + 1) * (l.length + 1) = l.length * l.length + l.length + l.length + 1 := by
      rw [Nat.mul_add, Nat.add_mul]
      omega
    rw [inversions, List.length_cons, hsq]
    split <;> omega

end Inversions

namespace Hex

open Inversions

namespace Insn

/-- A store or a load. -/
def isMem (i : Insn) : Bool := i.attrib .store || i.attrib .load

/-- What a store behind it is not kept from passing. -/
def isOther (i : Insn) : Bool := !i.isMem && !i.attrib .dotnewvalue

end Insn

/-- The store pass over the instructions from one place on. -/
def storeScan : List Insn → StorePass
  | [] => ⟨[], false, 0, false⟩
  | x :: l =>
    let s := storeScan l
    if s.flag && x.attrib .store then
      ⟨s.insn.take (s.insn.length - s.nMems) ++ x :: s.insn.drop (s.insn.length - s.nMems), s.flag, s.nMems + 1, true⟩
    else if x.isMem then ⟨x :: s.insn, s.flag, s.nMems + 1, s.changed⟩
    else ⟨x :: s.insn, s.flag || x.isOther, s.nMems, s.changed⟩

/-- The compare pass over the instructions from one place on, `st.insn` being before it. -/
def compareScan : ComparePass → List Insn → ComparePass
  | st, [] => st
  | st, x :: l =>
    compareScan
      (if x.isCompare then
        if st.flag then ⟨x :: st.insn, st.flag, true⟩ else ⟨st.insn ++ [x], st.flag, st.changed⟩
      else ⟨st.insn ++ [x], true, st.changed⟩) l

section Scans

theorem storeScan_length : ∀ l : List Insn, (storeScan l).insn.length = l.length
  | [] => rfl
  | x :: l => by
    have ih := storeScan_length l
    unfold storeScan
    simp only
    split
    · simp only [List.length_append, List.length_take, List.length_cons, List.length_drop]
      omega
    · split <;> simp [ih]

theorem storeScan_nMems : ∀ l : List Insn, (storeScan l).nMems = l.countP Insn.isMem
  | [] => rfl
  | x :: l => by
    have ih := storeScan_nMems l
    unfold storeScan
    simp only
    split
    · rename_i h
      have hmem : x.isMem = true := by
        simp only [Bool.and_eq_true] at h
        rw [Insn.isMem, h.2, Bool.true_or]
      rw [ih, List.countP_cons_of_pos hmem]
    · split
      · rename_i hmem
        rw [ih, List.countP_cons_of_pos hmem]
      · rename_i hmem
        rw [ih, List.countP_cons_of_neg hmem]

theorem storeScan_flag : ∀ l : List Insn, (storeScan l).flag = l.any Insn.isOther
  | [] => rfl
  | x :: l => by
    have ih := storeScan_flag l
    have hmem : x.isMem = true → x.isOther = false := fun h => by rw [Insn.isOther, h]; rfl
    unfold storeScan
    simp only
    rw [List.any_cons]
    split
    · rename_i h
      simp only [Bool.and_eq_true] at h
      rw [hmem (by rw [Insn.isMem, h.2, Bool.true_or]), Bool.false_or, ih]
    · split
      · rename_i h
        rw [hmem h, Bool.false_or, ih]
      · rw [ih, Bool.or_comm]

/-- One turn of the store pass, `suf` being done. -/
theorem storeStep_eq (pre suf c : List Insn) (x : Insn) :
    storeStep (pre.length + (suf.length + 1)) pre.length
        ⟨pre ++ x :: ((storeScan suf).insn ++ c), (storeScan suf).flag, (storeScan suf).nMems,
          (storeScan suf).changed⟩ =
      { storeScan (x :: suf) with insn := pre ++ ((storeScan (x :: suf)).insn ++ c) } := by
  have hlen := storeScan_length suf
  have hle : (storeScan suf).nMems ≤ suf.length := by
    rw [storeScan_nMems suf]
    exact List.countP_le_length
  have hget : (pre ++ x :: ((storeScan suf).insn ++ c))[pre.length]? = some x := by simp
  unfold storeStep
  simp only [hget]
  rw [storeScan]
  cases hstore : x.attrib .store with
  | true =>
    have hmem : x.isMem = true := by rw [Insn.isMem, hstore, Bool.true_or]
    cases hflag : (storeScan suf).flag with
    | true =>
      have hto : pre.length + suf.length - (storeScan suf).nMems =
          pre.length + ((storeScan suf).insn.take ((storeScan suf).insn.length - (storeScan suf).nMems)).length := by
        rw [List.length_take]
        omega
      have hmove := sendInsnTo_append pre ((storeScan suf).insn.take
        ((storeScan suf).insn.length - (storeScan suf).nMems))
        ((storeScan suf).insn.drop ((storeScan suf).insn.length - (storeScan suf).nMems) ++ c) x
      rw [← hto, ← List.append_assoc, List.take_append_drop] at hmove
      simp [hmove]
    | false => simp [hmem]
  | false =>
    cases hload : x.attrib .load with
    | true =>
      have hmem : x.isMem = true := by rw [Insn.isMem, hload, Bool.or_true]
      simp [hmem]
    | false =>
      have hmem : x.isMem = false := by rw [Insn.isMem, hstore, hload]; rfl
      cases hnew : x.attrib .dotnewvalue <;> simp [hmem, Insn.isOther, hnew]

theorem storeLoop_eq (c : List Insn) (pre : List Insn) : ∀ suf : List Insn,
    storeLoop (pre.length + suf.length) pre.length
        ⟨pre ++ ((storeScan suf).insn ++ c), (storeScan suf).flag, (storeScan suf).nMems, (storeScan suf).changed⟩ =
      { storeScan (pre ++ suf) with insn := (storeScan (pre ++ suf)).insn ++ c } := by
  induction pre using List.reverseRecOn with
  | nil => exact fun suf => rfl
  | append_singleton pre x ih =>
    intro suf
    rw [List.length_append, List.length_singleton, storeLoop, List.append_assoc pre [x], List.append_assoc pre [x],
      List.singleton_append, List.singleton_append, Nat.add_assoc, Nat.add_comm 1, storeStep_eq]
    exact ih (x :: suf)

theorem storePass_eq (core c : List Insn) :
    storePass core.length (core ++ c) = { storeScan core with insn := (storeScan core).insn ++ c } := by
  have h := storeLoop_eq c core []
  rw [List.append_nil] at h
  exact h

theorem compareLoop_eq (c : List Insn) : ∀ (l : List Insn) (st : ComparePass),
    compareLoop st.insn.length l.length { st with insn := st.insn ++ (l ++ c) } =
      { compareScan st l with insn := (compareScan st l).insn ++ c }
  | [], st => rfl
  | x :: l, st => by
    have hget : (st.insn ++ x :: (l ++ c))[st.insn.length]? = some x := by simp
    rw [List.length_cons, compareLoop, compareScan]
    unfold compareStep
    simp only [List.cons_append, hget]
    cases hx : x.isCompare with
    | true =>
      cases hflag : st.flag with
      | true =>
        have := compareLoop_eq c l ⟨x :: st.insn, true, true⟩
        simp only [if_true, sendInsnTo_zero]
        exact this
      | false =>
        have := compareLoop_eq c l ⟨st.insn ++ [x], false, st.changed⟩
        simpa using this
    | false =>
      have := compareLoop_eq c l ⟨st.insn ++ [x], true, st.changed⟩
      simpa using this

theorem comparePass_eq (core c : List Insn) :
    comparePass core.length (core ++ c) =
      { compareScan ⟨[], false, false⟩ core with insn := (compareScan ⟨[], false, false⟩ core).insn ++ c } :=
  compareLoop_eq c core ⟨[], false, false⟩

theorem storeScan_perm (l : List Insn) : (storeScan l).insn.Perm l := by
  have h := @storeLoop_perm l.length l.length ⟨l ++ [], false, 0, false⟩ (by simp)
  rw [← storePass, storePass_eq] at h
  simpa using h

theorem compareScan_perm : ∀ (l : List Insn) (st : ComparePass), (compareScan st l).insn.Perm (st.insn ++ l)
  | [], st => by rw [List.append_nil]; exact .rfl
  | x :: l, st => by
    have hfront : (x :: st.insn ++ l).Perm (st.insn ++ x :: l) := List.perm_middle.symm
    have hback : (st.insn ++ [x] ++ l).Perm (st.insn ++ x :: l) := by simp
    rw [compareScan]
    refine (compareScan_perm l _).trans ?_
    split
    · split
      · exact hfront
      · exact hback
    · exact hback

end Scans

section Progress

/-- No store stands before an instruction that the pass would send it behind. -/
def Settled : List Insn → Prop
  | [] => True
  | x :: l => (x.attrib .store = true → l.any Insn.isOther = false) ∧ Settled l

theorem storeScan_settled : ∀ {l : List Insn}, (storeScan l).changed = false ↔ Settled l
  | [] => ⟨fun _ => trivial, fun _ => rfl⟩
  | x :: l => by
    have ih := storeScan_settled (l := l)
    have hflag := storeScan_flag l
    unfold storeScan
    simp only
    rw [Settled, ← hflag]
    split
    · rename_i h
      simp only [Bool.and_eq_true] at h
      exact ⟨nofun, fun hs => absurd (hs.1 h.2) (by rw [h.1]; decide)⟩
    · rename_i h
      have hhead : x.attrib .store = true → (storeScan l).flag = false := fun hs => by
        cases hf : (storeScan l).flag
        · rfl
        · exact absurd (by rw [hf, hs]; rfl) h
      split <;> exact ⟨fun hc => ⟨hhead, ih.1 hc⟩, fun hs => ih.2 hs.2⟩

theorem storeScan_of_settled : ∀ {l : List Insn}, Settled l → (storeScan l).insn = l
  | [], _ => rfl
  | x :: l, h => by
    have ih := storeScan_of_settled h.2
    unfold storeScan
    simp only
    split
    · rename_i hc
      simp only [Bool.and_eq_true] at hc
      have := h.1 hc.2
      rw [← storeScan_flag, hc.1] at this
      cases this
    · split <;> rw [ih]

/-- An instruction that the pass sends stores behind is no memory access. -/
theorem storeScan_nMems_lt {l : List Insn} (h : (storeScan l).flag = true) :
    ∃ k, (storeScan l).insn.length - (storeScan l).nMems = k + 1 := by
  have hle : (storeScan l).nMems ≤ l.length := by
    rw [storeScan_nMems]
    exact List.countP_le_length
  have hne : (storeScan l).nMems ≠ l.length := fun heq => by
    rw [storeScan_nMems] at heq
    rw [storeScan_flag] at h
    obtain ⟨z, hz, ho⟩ := List.any_eq_true.1 h
    rw [Insn.isOther, List.countP_eq_length.1 heq z hz] at ho
    cases ho
  exact ⟨l.length - (storeScan l).nMems - 1, by rw [storeScan_length]; omega⟩

/-- Before what makes the pass move a store stands something that is no store. -/
theorem storeScan_head : ∀ {l : List Insn}, (storeScan l).flag = true →
    ∃ y m, (storeScan l).insn = y :: m ∧ y.attrib .store = false
  | [], h => nomatch h
  | x :: l, h => by
    unfold storeScan at h ⊢
    simp only at h ⊢
    split at h
    · rename_i hc
      rw [if_pos hc]
      simp only [Bool.and_eq_true] at hc
      obtain ⟨y, m, hym, hy⟩ := storeScan_head hc.1
      obtain ⟨k, htake⟩ := storeScan_nMems_lt hc.1
      rw [htake, hym, List.take_succ_cons]
      exact ⟨y, _, rfl, hy⟩
    · rename_i hc
      rw [if_neg hc]
      split at h
      · rename_i hm
        rw [if_pos hm]
        refine ⟨x, _, rfl, ?_⟩
        cases hs : x.attrib .store
        · rfl
        · exact absurd (by rw [h, hs]; rfl) hc
      · rename_i hm
        rw [if_neg hm]
        refine ⟨x, _, rfl, ?_⟩
        cases hs : x.attrib .store
        · rfl
        · exact absurd (by rw [Insn.isMem, hs]; rfl) hm

/-- The stores that stand before an instruction that is no store. -/
def storesAhead (l : List Insn) : Nat := inversions (·.attrib .store) (fun x => !x.attrib .store) l

/-- The compares that stand behind an instruction that is none. -/
def comparesBehind (l : List Insn) : Nat := inversions (fun x => !x.isCompare) (·.isCompare) l

theorem inversions_cons_of_perm (p q : Insn → Bool) (x : Insn) {l m : List Insn} (h : l.Perm m) :
    inversions p q (x :: l) + inversions p q m = inversions p q (x :: m) + inversions p q l := by
  have hx : ∀ l : List Insn, inversions p q (x :: l) = (if p x then l.countP q else 0) + inversions p q l := fun _ =>
    rfl
  rw [hx, hx, h.countP_eq]
  omega

/-- Where the scan moves a store, it goes over what the scan has made of the instructions behind it. -/
theorem storeScan_move {x : Insn} {l : List Insn} (hflag : (storeScan l).flag = true) (hx : x.attrib .store = true) :
    ∃ y b c, (storeScan l).insn = y :: b ++ c ∧ y.attrib .store = false ∧
      (storeScan (x :: l)).insn = y :: b ++ x :: c ∧ (storeScan (x :: l)).changed = true := by
  obtain ⟨y, m, hym, hy⟩ := storeScan_head hflag
  obtain ⟨k, htake⟩ := storeScan_nMems_lt hflag
  refine ⟨y, m.take k, m.drop k, ?_, hy, ?_, ?_⟩
  · rw [hym, List.cons_append, List.take_append_drop]
  · rw [storeScan]
    simp only [hflag, hx, Bool.and_self, if_true, htake]
    rw [hym, List.take_succ_cons, List.drop_succ_cons]
  · rw [storeScan]
    simp only [hflag, hx, Bool.and_self, if_true]

theorem storeScan_keep {x : Insn} {l : List Insn} (h : ¬ ((storeScan l).flag && x.attrib .store) = true) :
    (storeScan (x :: l)).insn = x :: (storeScan l).insn ∧ (storeScan (x :: l)).changed = (storeScan l).changed := by
  rw [storeScan]
  simp only [if_neg h]
  split <;> exact ⟨rfl, rfl⟩

/-- **A store pass that changes something leaves fewer stores ahead.** -/
theorem storesAhead_storeScan : ∀ l : List Insn,
    storesAhead (storeScan l).insn + (if (storeScan l).changed then 1 else 0) ≤ storesAhead l
  | [] => Nat.le_refl _
  | x :: l => by
    have ih := storesAhead_storeScan l
    have hcons := inversions_cons_of_perm (·.attrib .store) (fun x => !x.attrib .store) x (storeScan_perm l)
    unfold storesAhead at *
    by_cases h : ((storeScan l).flag && x.attrib .store) = true
    · simp only [Bool.and_eq_true] at h
      obtain ⟨y, b, c, hl, hy, hmoved, hch⟩ := storeScan_move h.1 h.2
      have hmove := inversions_move (·.attrib .store) (fun x : Insn => !x.attrib .store) [] (y :: b) c x
      simp only [List.nil_append, h.2, if_true, Bool.not_true, Bool.false_eq_true, if_false,
        List.countP_cons, hy, Bool.not_false] at hmove
      rw [hmoved, hch, if_pos rfl]
      rw [hl] at hcons ih
      omega
    · obtain ⟨hkeep, hch⟩ := storeScan_keep h
      rw [hkeep, hch]
      omega

theorem comparesBehind_storeScan : ∀ l : List Insn, comparesBehind (storeScan l).insn ≤ comparesBehind l
  | [] => Nat.le_refl _
  | x :: l => by
    have ih := comparesBehind_storeScan l
    have hcons := inversions_cons_of_perm (fun x => !x.isCompare) (·.isCompare) x (storeScan_perm l)
    unfold comparesBehind at *
    by_cases h : ((storeScan l).flag && x.attrib .store) = true
    · simp only [Bool.and_eq_true] at h
      obtain ⟨y, b, c, hl, -, hmoved, -⟩ := storeScan_move h.1 h.2
      have hx : x.isCompare = false := by
        cases hc : x.isCompare
        · rfl
        · exact absurd h.2 (by rw [Insn.compare_lacks hc (by decide)]; decide)
      have hmove := inversions_move (fun x : Insn => !x.isCompare) (·.isCompare) [] (y :: b) c x
      simp only [List.nil_append, hx, Bool.not_false, if_true, Bool.false_eq_true, if_false] at hmove
      rw [hmoved]
      rw [hl] at hcons ih
      omega
    · obtain ⟨hkeep, -⟩ := storeScan_keep h
      rw [hkeep]
      omega

/-- Taking the compare `x` over what is before it. -/
theorem inversions_front (p q : Insn → Bool) (a b : List Insn) (x : Insn) :
    inversions p q (x :: a ++ b) + (if q x then a.countP p else 0) =
      inversions p q (a ++ x :: b) + if p x then a.countP q else 0 := by
  have h := inversions_move p q [] a b x
  simp only [List.nil_append] at h
  rw [List.cons_append]
  omega

/-- **A compare pass that changes something leaves fewer compares behind.** -/
theorem comparesBehind_compareScan : ∀ (l : List Insn) (st : ComparePass),
    (st.flag = true → st.insn.any (fun x => !x.isCompare) = true) →
    comparesBehind (compareScan st l).insn + (if (compareScan st l).changed then 1 else 0) ≤
      comparesBehind (st.insn ++ l) + if st.changed then 1 else 0
  | [], st, _ => by rw [List.append_nil, compareScan]
  | x :: l, st, h => by
    have hback : st.insn ++ [x] ++ l = st.insn ++ x :: l := by simp
    rw [compareScan]
    cases hx : x.isCompare with
    | true =>
      cases hflag : st.flag with
      | true =>
        have hfront := inversions_front (fun x => !x.isCompare) (·.isCompare) st.insn l x
        have hpos : 0 < st.insn.countP (fun x => !x.isCompare) :=
          List.countP_pos_iff.2 (List.any_eq_true.1 (h hflag))
        have ih := comparesBehind_compareScan l ⟨x :: st.insn, true, true⟩
          (fun _ => by rw [List.any_cons, h hflag, Bool.or_true])
        unfold comparesBehind at *
        simp only [hx, if_true, Bool.not_true, Bool.false_eq_true, if_false] at hfront ih ⊢
        omega
      | false =>
        have ih := comparesBehind_compareScan l ⟨st.insn ++ [x], false, st.changed⟩ nofun
        simp only [if_true, Bool.false_eq_true, if_false]
        rwa [hback] at ih
    | false =>
      have ih := comparesBehind_compareScan l ⟨st.insn ++ [x], true, st.changed⟩
        (fun _ => by simp [hx])
      simp only [Bool.false_eq_true, if_false]
      rwa [hback] at ih

theorem storesAhead_compareScan : ∀ (l : List Insn) (st : ComparePass),
    storesAhead (compareScan st l).insn ≤ storesAhead (st.insn ++ l)
  | [], st => by rw [List.append_nil]; exact Nat.le_refl _
  | x :: l, st => by
    have hback : st.insn ++ [x] ++ l = st.insn ++ x :: l := by simp
    rw [compareScan]
    cases hx : x.isCompare with
    | true =>
      cases hflag : st.flag with
      | true =>
        have hfront := inversions_front (·.attrib .store) (fun x => !x.attrib .store) st.insn l x
        have ih := storesAhead_compareScan l ⟨x :: st.insn, true, true⟩
        unfold storesAhead at *
        simp only [Insn.compare_lacks hx (a := .store) (by decide), Bool.not_false, if_true, Bool.false_eq_true,
          if_false] at hfront ih ⊢
        omega
      | false =>
        have ih := storesAhead_compareScan l ⟨st.insn ++ [x], false, st.changed⟩
        simp only [if_true, Bool.false_eq_true, if_false]
        rwa [hback] at ih
    | false =>
      have ih := storesAhead_compareScan l ⟨st.insn ++ [x], true, st.changed⟩
      simp only [Bool.false_eq_true, if_false]
      rwa [hback] at ih

end Progress

section Order

variable {p : Insn → Bool}

theorem Settled.any {x : Insn} (hx : x.attrib .store = false) (b : List Insn) : ∀ {a : List Insn},
    Settled (a ++ x :: b) → Settled (a ++ b)
  | [], h => h.2
  | y :: a, h => by
    refine ⟨fun hy => ?_, Settled.any hx b h.2⟩
    have := h.1 hy
    simp only [List.append_eq, List.any_append, List.any_cons, Bool.or_eq_false_iff] at this ⊢
    exact ⟨this.1, this.2.2⟩

theorem Settled.compareScan : ∀ {l : List Insn} {st : ComparePass}, Settled (st.insn ++ l) →
    Settled (Hex.compareScan st l).insn
  | [], st, h => by rwa [List.append_nil] at h
  | x :: l, st, h => by
    have hback : st.insn ++ [x] ++ l = st.insn ++ x :: l := by simp
    rw [Hex.compareScan]
    refine Settled.compareScan ?_
    split
    · rename_i hx
      have hstore : x.attrib .store = false := Insn.compare_lacks hx (by decide)
      split
      · exact ⟨fun hs => absurd hs (by rw [hstore]; decide), Settled.any hstore l h⟩
      · rw [hback]; exact h
    · rw [hback]; exact h

theorem filter_storeScan (hp : ∀ x, p x = true → x.attrib .store = false) : ∀ l : List Insn,
    (storeScan l).insn.filter p = l.filter p
  | [] => rfl
  | x :: l => by
    have ih := filter_storeScan hp l
    by_cases h : ((storeScan l).flag && x.attrib .store) = true
    · simp only [Bool.and_eq_true] at h
      obtain ⟨y, b, c, hl, -, hmoved, -⟩ := storeScan_move h.1 h.2
      have hpx : ¬ p x = true := fun hpx => absurd h.2 (by rw [hp x hpx]; decide)
      rw [hmoved, List.filter_append, List.filter_cons_of_neg hpx, ← List.filter_append, ← hl, ih,
        List.filter_cons_of_neg hpx]
    · rw [(storeScan_keep h).1, List.filter_cons, List.filter_cons, ih]

/-- The compare pass keeps the order of what is no compare. -/
theorem filter_compareScan (hp : ∀ x, p x = true → x.isCompare = false) : ∀ (l : List Insn) (st : ComparePass),
    (compareScan st l).insn.filter p = (st.insn ++ l).filter p
  | [], st => by rw [List.append_nil]; rfl
  | x :: l, st => by
    have hback : st.insn ++ [x] ++ l = st.insn ++ x :: l := by simp
    rw [compareScan, filter_compareScan hp l]
    split
    · rename_i hx
      have hpx : ¬ p x = true := fun hpx => absurd hx (by rw [hp x hpx]; decide)
      split
      · rw [List.cons_append, List.filter_cons_of_neg hpx, List.filter_append, List.filter_append,
          List.filter_cons_of_neg hpx]
      · rw [hback]
    · rw [hback]

theorem compareScan_unchanged : ∀ {l : List Insn} {st : ComparePass}, (compareScan st l).changed = false →
    st.changed = false ∧ (compareScan st l).insn = st.insn ++ l
  | [], st, h => ⟨h, (List.append_nil _).symm⟩
  | x :: l, st, h => by
    have hback : st.insn ++ [x] ++ l = st.insn ++ x :: l := by simp
    rw [compareScan] at h ⊢
    obtain ⟨hch, heq⟩ := compareScan_unchanged h
    rw [heq]
    split at hch
    · split at hch
      · cases hch
      · rename_i hx hflag
        rw [if_pos hx, if_neg hflag]
        exact ⟨hch, hback⟩
    · rename_i hx
      rw [if_neg hx]
      exact ⟨hch, hback⟩

/-- What the rounds make of `core`. -/
structure Rounds (core core' : List Insn) : Prop where
  perm : core'.Perm core
  settled : Settled core'
  order : ∀ p : Insn → Bool, (∀ x, p x = true → x.attrib .store = false) → (∀ x, p x = true → x.isCompare = false) →
    core'.filter p = core.filter p
  /-- Once the stores stand behind, only compares move. -/
  stores : Settled (storeScan core).insn → ∀ p : Insn → Bool, (∀ x, p x = true → x.isCompare = false) →
    core'.filter p = (storeScan core).insn.filter p

/-- **The shuffle comes to an end**: every round that changes something leaves fewer stores ahead or fewer compares
behind. -/
theorem shuffleLoop_rounds (c : List Insn) : ∀ (fuel : Nat) (core : List Insn),
    storesAhead core + comparesBehind core < fuel →
      ∃ core', shuffleLoop core.length fuel (core ++ c) = some (core' ++ c) ∧ Rounds core core'
  | 0, _, h => absurd h (Nat.not_lt_zero _)
  | fuel + 1, core, h => by
    have hstores := storesAhead_storeScan core
    have hcompares := comparesBehind_storeScan core
    have hlen := storeScan_length core
    rw [shuffleLoop, storePass_eq]
    cases hch : (storeScan core).changed with
    | true =>
      rw [hch, if_pos rfl] at hstores
      obtain ⟨core', heq, hr⟩ := shuffleLoop_rounds c fuel (storeScan core).insn (by omega)
      rw [hlen] at heq
      refine ⟨core', by simp only [if_true]; exact heq, hr.perm.trans (storeScan_perm core), hr.settled, ?_, ?_⟩
      · intro p hs hc
        rw [hr.order p hs hc, filter_storeScan hs]
      · intro hset p hc
        have := storeScan_of_settled hset
        rw [hr.stores (by rw [this]; exact hset) p hc, this]
    | false =>
      have hset := storeScan_settled.1 hch
      have hinsn := storeScan_of_settled hset
      have hstores' := storesAhead_compareScan core ⟨[], false, false⟩
      have hcompares' := comparesBehind_compareScan core ⟨[], false, false⟩ nofun
      have hperm := compareScan_perm core ⟨[], false, false⟩
      have hset' : Settled (compareScan ⟨[], false, false⟩ core).insn := Settled.compareScan hset
      simp only [hinsn, comparePass_eq, Bool.false_eq_true, if_false]
      cases hcch : (compareScan ⟨[], false, false⟩ core).changed with
      | true =>
        simp only [hcch, if_true, List.nil_append, Bool.false_eq_true, if_false] at hcompares' hstores'
        obtain ⟨core', heq, hr⟩ := shuffleLoop_rounds c fuel (compareScan ⟨[], false, false⟩ core).insn (by omega)
        rw [hperm.length_eq, List.nil_append] at heq
        refine ⟨core', heq, hr.perm.trans hperm, hr.settled, ?_, ?_⟩
        · intro p hs hc
          rw [hr.order p hs hc, filter_compareScan hc, List.nil_append]
        · intro _ p hc
          rw [hr.stores (by rw [storeScan_of_settled hset']; exact hset') p hc, storeScan_of_settled hset',
            filter_compareScan hc, List.nil_append, hinsn]
      | false =>
        have heq := (compareScan_unchanged hcch).2
        rw [List.nil_append] at heq
        simp only [Bool.false_eq_true, if_false, heq]
        exact ⟨core, rfl, .rfl, hset, fun _ _ _ => rfl, fun _ _ _ => by rw [hinsn]⟩

/-- The rounds of `PreparePacketForLifting` are enough for every packet that fits the array. -/
theorem shuffleLoop_fuel {core : List Insn} (c : List Insn) (h : core.length ≤ instructionsMax) :
    ∃ core', shuffleLoop core.length shuffleFuel (core ++ c) = some (core' ++ c) ∧ Rounds core core' := by
  have hstores := inversions_le (·.attrib .store) (fun x => !x.attrib .store) core
  have hcompares := inversions_le (fun x => !x.isCompare) (·.isCompare) core
  have hsq := Nat.mul_le_mul h h
  refine shuffleLoop_rounds c shuffleFuel core ?_
  unfold storesAhead comparesBehind shuffleFuel
  simp only [instructionsMax] at *
  omega

end Order

end Hex
