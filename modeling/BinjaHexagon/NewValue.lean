import BinjaHexagon.DecodeSafe
/-!
# NewValue — `decode_fill_newvalue_regno`

The operand of a `.new` register counts instructions back to the one that makes the value: extenders do not count and a
duplex counts once.  From place 1 on an operand is filled in or the packet rejected; place 0 is never looked at.
-/
namespace Hex

namespace Insn

/-- An instruction with an operand that `decode_fill_newvalue_regno` fills in. -/
def takesNewvalue (i : Insn) : Bool := i.attrib .dotnewvalue && !i.attrib .extension

/-- `use_regidx`. -/
def newvalueUse (i : Insn) : Option Nat := i.regIndex (if i.attrib .store then .t else .s)

/-- A general register the instruction has as a destination. -/
def IsDest (i : Insn) (d : Nat) : Prop :=
  ∃ o, i.opcode.regs[d]? = some o ∧ o.regtype = .R ∧ o.regid.letter ∈ [RegLetter.d, .x, .e, .y]

/-- How the table uses its operands: no letter twice, a number for each, and a `.new` register where the code looks for
one. -/
structure NewvalueRow (i : Insn) : Prop where
  letters : (i.opcode.regs.map fun o => o.regid.letter).Nodup
  filled : i.opcode.regs.length ≤ i.regno.length
  use : i.takesNewvalue = true → ∃ u o, i.newvalueUse = some u ∧ i.opcode.regs[u]? = some o ∧ o.regtype = .N

end Insn

/-- `while (ahead > 0)` from `def_idx` on, and the check behind it: the places of the packet it reads, and the place it
ends at unless an assertion fails. -/
def walkProducer (l : List Insn) (defIdx : Int) (ahead : Nat) : List Int × Option Int :=
  if ahead = 0 then ([], if defIdx < 0 ∨ defIdx > (l.length : Int) - 1 then none else some defIdx)
  else if _h : defIdx > 0 then
    let r := match l[(defIdx - 1).toNat]? with
      | none => ([], none)
      | some y =>
        if y.isExtender then walkProducer l (defIdx - 1) ahead
        else if y.isSubInsn then walkProducer l (defIdx - 2) (ahead - 1)
        else walkProducer l (defIdx - 1) (ahead - 1)
    ((defIdx - 1) :: r.1, r.2)
  else ([], none)
termination_by defIdx.toNat

section Walk

variable {l : List Insn}

theorem walkProducer_stop {n : Int} {a : Nat} (hn : n ≤ 0) (ha : 0 < a) : walkProducer l n a = ([], none) := by
  rw [walkProducer, if_neg (by omega), dif_neg (by omega)]

theorem walkProducer_succ {n a : Nat} {y : Insn} (hy : l[n]? = some y) :
    walkProducer l (n + 1) (a + 1) = ((n : Int) ::
      (if y.isExtender then walkProducer l n (a + 1)
        else if y.isSubInsn then walkProducer l (n - 1) a else walkProducer l n a).1,
      (if y.isExtender then walkProducer l n (a + 1)
        else if y.isSubInsn then walkProducer l (n - 1) a else walkProducer l n a).2) := by
  have h1 : (n : Int) + 1 - 1 = n := by omega
  have h2 : (n : Int) + 1 - 2 = n - 1 := by omega
  rw [walkProducer, if_neg (Nat.succ_ne_zero a), dif_pos (by omega)]
  simp only [h1, h2, Int.toNat_natCast, hy, Nat.add_sub_cancel]

theorem findProducer_succ {n a : Nat} {y : Insn} (hy : l[n]? = some y) :
    findProducer l (n + 1) (a + 1) = if y.isExtender then findProducer l n (a + 1)
      else if y.isSubInsn then (if n = 0 then none else findProducer l (n - 1) a) else findProducer l n a := by
  cases n with
  | zero =>
    simp only [findProducer, hy]
    cases y.isExtender <;> rfl
  | succ n => simp only [findProducer, hy, Nat.succ_ne_zero, if_false, Nat.add_sub_cancel]

/-- **The walk reads places of the packet only**, and ends where `findProducer` says. -/
theorem walkProducer_spec : ∀ (n a : Nat), n < l.length →
    (∀ p ∈ (walkProducer l n a).1, 0 ≤ p ∧ p < n) ∧ (walkProducer l n a).2 = (findProducer l n a).map Int.ofNat
  | n, 0, hn => by
    rw [walkProducer, if_pos rfl, if_neg (by omega)]
    refine ⟨fun p hp => absurd hp List.not_mem_nil, ?_⟩
    cases n <;> rfl
  | 0, a + 1, _ => by
    rw [walkProducer_stop (by omega) (Nat.succ_pos a)]
    exact ⟨fun p hp => absurd hp List.not_mem_nil, rfl⟩
  | n + 1, a + 1, hn => by
    have hy : l[n]? = some l[n] := List.getElem?_eq_getElem (by omega)
    rw [Nat.cast_add, Nat.cast_one, walkProducer_succ hy, findProducer_succ hy]
    have hlater : ∀ q : List Int × Option Int, (∀ p ∈ q.1, 0 ≤ p ∧ p < n) →
        ∀ p ∈ (n : Int) :: q.1, 0 ≤ p ∧ p < (n : Int) + 1 := fun q hq p hp => by
      rcases List.mem_cons.1 hp with rfl | hp
      · omega
      · have := hq p hp
        omega
    by_cases he : l[n].isExtender = true
    · obtain ⟨hreads, hfound⟩ := walkProducer_spec n (a + 1) (by omega)
      rw [if_pos he, if_pos he]
      exact ⟨hlater _ hreads, hfound⟩
    · rw [if_neg he, if_neg he]
      by_cases hs : l[n].isSubInsn = true
      · rw [if_pos hs, if_pos hs]
        cases n with
        | zero =>
          -- the other half of the duplex would be place -1: the loop stops, or the check behind it fails
          have hnone : walkProducer l ((0 : Nat) - 1) a = ([], none) := by
            rcases Nat.eq_zero_or_pos a with rfl | ha
            · rw [walkProducer, if_pos rfl, if_pos (by omega)]
            · exact walkProducer_stop (by omega) ha
          rw [hnone, if_pos rfl]
          exact ⟨hlater _ fun p hp => absurd hp List.not_mem_nil, rfl⟩
        | succ n =>
          obtain ⟨hreads, hfound⟩ := walkProducer_spec n a (by omega)
          rw [Nat.cast_add, Nat.cast_one, Int.add_sub_cancel, if_neg (Nat.succ_ne_zero n), Nat.add_sub_cancel]
          rw [Nat.cast_add, Nat.cast_one] at hlater
          exact ⟨hlater _ fun p hp => by have := hreads p hp; omega, hfound⟩
      · obtain ⟨hreads, hfound⟩ := walkProducer_spec n a (by omega)
        rw [if_neg hs, if_neg hs]
        exact ⟨hlater _ hreads, hfound⟩

end Walk

/-- Whether the instruction at a place counts in a distance: an extender does not, nor the second half of a duplex. -/
def counted (l : List Insn) (p : Nat) : Bool :=
  l[p]?.any fun x => !x.isExtender && !(x.isSubInsn && p != 0 && l[p - 1]?.any (·.isSubInsn))

/-- How many instructions stand from place `k` up to place `n`. -/
def distance (l : List Insn) (k n : Nat) : Nat := (List.range' k (n - k)).countP (counted l)

/-- The instruction at place `k` stands exactly `a` instructions ahead of place `n`. -/
structure Ahead (l : List Insn) (k n a : Nat) : Prop where
  lt : k < n
  counts : counted l k = true
  distance : distance l k n = a

section Distance

variable {l : List Insn}

theorem distance_self (k : Nat) : distance l k k = 0 := by
  rw [distance, Nat.sub_self, List.range'_zero, List.countP_nil]

theorem distance_succ {k n : Nat} (h : k ≤ n) :
    distance l k (n + 1) = distance l k n + if counted l n then 1 else 0 := by
  have hn : k + (n - k) = n := by omega
  rw [distance, Nat.succ_sub h, List.range'_concat, List.countP_append, Nat.mul_comm, Nat.mul_one, hn,
    List.countP_singleton, ← distance]

theorem Ahead.pos {k n a : Nat} (h : Ahead l k n a) : 0 < a := by
  have hlt := h.lt
  have hpos : 0 < Hex.distance l k n :=
    List.countP_pos_iff.2 ⟨k, List.mem_range'_1.2 ⟨Nat.le_refl k, by omega⟩, h.counts⟩
  rwa [h.distance] at hpos

theorem ahead_succ {k n a : Nat} : Ahead l k (n + 1) (a + 1) ↔
    if counted l n then (a = 0 ∧ k = n) ∨ Ahead l k n a else Ahead l k n (a + 1) := by
  by_cases hn : counted l n = true
  · rw [if_pos hn]
    constructor
    · rintro ⟨hlt, hk, hd⟩
      rcases Nat.lt_or_ge k n with hkn | hkn
      · rw [distance_succ (by omega), if_pos hn] at hd
        exact .inr ⟨hkn, hk, by omega⟩
      · obtain rfl : k = n := by omega
        rw [distance_succ (by omega), distance_self, if_pos hn] at hd
        exact .inl ⟨by omega, rfl⟩
    · rintro (⟨rfl, rfl⟩ | ⟨hlt, hk, hd⟩)
      · exact ⟨by omega, hn, by rw [distance_succ (by omega), distance_self, if_pos hn]⟩
      · exact ⟨by omega, hk, by rw [distance_succ (by omega), if_pos hn, hd]⟩
  · rw [if_neg hn]
    constructor
    · rintro ⟨hlt, hk, hd⟩
      have hkn : k ≠ n := fun h => hn (h ▸ hk)
      rw [distance_succ (by omega), if_neg hn] at hd
      exact ⟨by omega, hk, hd⟩
    · rintro ⟨hlt, hk, hd⟩
      exact ⟨by omega, hk, by rw [distance_succ (by omega), if_neg hn, hd]⟩

/-- **Behind whole instructions the walk finds the one that stands the number ahead**, and nothing else. -/
theorem findProducer_iff {k : Nat} : ∀ {n a : Nat}, n ≤ l.length →
    (∀ p x, p < n → l[p]? = some x → x.isSubInsn = false) →
    (findProducer l n a = some k ↔ (a = 0 ∧ k = n) ∨ Ahead l k n a)
  | n, 0, _, _ => by
    have hfind : findProducer l n 0 = some n := by cases n <;> rfl
    rw [hfind]
    constructor
    · intro h
      exact .inl ⟨rfl, (Option.some.inj h).symm⟩
    · rintro (⟨-, rfl⟩ | h)
      · rfl
      · exact absurd h.pos (Nat.lt_irrefl 0)
  | 0, a + 1, _, _ => by
    constructor
    · intro h
      cases h
    · rintro (⟨h, -⟩ | h)
      · cases h
      · exact absurd h.lt (Nat.not_lt_zero k)
  | n + 1, a + 1, hn, hsub => by
    have hy : l[n]? = some l[n] := List.getElem?_eq_getElem (by omega)
    have hwhole : l[n].isSubInsn = false := hsub n _ (Nat.lt_succ_self n) hy
    have hcount : counted l n = !l[n].isExtender := by simp [counted, hy, hwhole]
    have hsub' : ∀ p x, p < n → l[p]? = some x → x.isSubInsn = false := fun p x hp => hsub p x (by omega)
    rw [findProducer_succ hy, hwhole, ahead_succ, hcount]
    cases l[n].isExtender with
    | true => simpa using findProducer_iff (a := a + 1) (by omega) hsub'
    | false => simpa using findProducer_iff (a := a) (by omega) hsub'

end Distance
namespace Insn

/-- The destination a `.new` operand takes its value from: the result `Rd` of an instruction that has one. -/
def IsResult (i : Insn) (d : Nat) : Prop :=
  i.IsDest d ∧ ∀ d' o, i.opcode.regs[d']? = some o → o.regtype = .R → o.regid.letter = .d → d' = d

variable {i : Insn}

theorem NewvalueRow.regIndex (h : i.NewvalueRow) {d : Nat} {o : OperandDecl} (ho : i.opcode.regs[d]? = some o) :
    i.regIndex o.regid.letter = some d := by
  obtain ⟨hd, rfl⟩ := List.getElem?_eq_some_iff.1 ho
  rw [Insn.regIndex, List.findIdx?_eq_some_iff_getElem]
  refine ⟨hd, beq_self_eq_true _, fun j hj hsame => ?_⟩
  have hlen : d < (i.opcode.regs.map fun o => o.regid.letter).length := by rwa [List.length_map]
  have hne : (⟨j, hj.trans hlen⟩ : Fin _) ≠ ⟨d, hlen⟩ := fun he => Nat.ne_of_lt hj (Fin.mk.inj he)
  have hdiff := (List.nodup_iff_injective_getElem.1 h.letters).ne hne
  simp only [List.getElem_map] at hdiff
  exact hdiff (beq_iff_eq.1 hsame)

theorem writesReg_iff {c : RegLetter} :
    i.writesReg c = true ↔ ∃ (d : Nat) (o : OperandDecl), i.opcode.regs[d]? = some o ∧ o.regtype = .R ∧
        o.regid.letter = c := by
  rw [writesReg, List.any_eq_true]
  constructor
  · rintro ⟨o, ho, hw⟩
    obtain ⟨d, hd⟩ := List.mem_iff_getElem?.1 ho
    rw [Bool.and_eq_true, beq_iff_eq, beq_iff_eq] at hw
    exact ⟨d, o, hd, hw⟩
  · rintro ⟨d, o, hd, ht, hc⟩
    exact ⟨o, List.mem_of_getElem? hd, by rw [ht, hc]; exact Bool.and_eq_true_iff.2 ⟨rfl, beq_self_eq_true c⟩⟩

/-- An operand found by its letter is the general register of that letter. -/
theorem NewvalueRow.dest (h : i.NewvalueRow) {c : RegLetter} (hc : c ∈ [RegLetter.d, .x, .e, .y])
    (hw : i.writesReg c = true) : ∃ d, i.regIndex c = some d ∧ i.IsDest d := by
  obtain ⟨d, o, ho, ht, rfl⟩ := writesReg_iff.1 hw
  exact ⟨d, h.regIndex ho, o, ho, ht, hc⟩

theorem newvalueDest_eq (i : Insn) :
    i.newvalueDest = ([RegLetter.d, .x, .e, .y].find? i.writesReg).bind i.regIndex := by
  unfold newvalueDest
  simp only [List.find?_cons, List.find?_nil]
  cases i.writesReg .d <;> cases i.writesReg .x <;> cases i.writesReg .e <;> cases i.writesReg .y <;> rfl

theorem NewvalueRow.newvalueDest_some (h : i.NewvalueRow) {d : Nat} (hd : i.newvalueDest = some d) : i.IsResult d := by
  rw [newvalueDest_eq, Option.bind_eq_some_iff] at hd
  obtain ⟨c, hc, hidx⟩ := hd
  obtain ⟨d₀, hd₀, hdest⟩ := h.dest (List.mem_of_find?_eq_some hc) (List.find?_some hc)
  obtain rfl : d₀ = d := Option.some.inj (hd₀.symm.trans hidx)
  refine ⟨hdest, fun d' o ho ht hletter => ?_⟩
  have hw : i.writesReg .d = true := writesReg_iff.2 ⟨d', o, ho, ht, hletter⟩
  rw [List.find?_cons, hw] at hc
  cases hc
  rw [← hletter, h.regIndex ho] at hidx
  exact Option.some.inj hidx

theorem NewvalueRow.newvalueDest_of_dest (h : i.NewvalueRow) {d : Nat} (hd : i.IsDest d) :
    ∃ d', i.newvalueDest = some d' := by
  obtain ⟨o, ho, ht, hc⟩ := hd
  have hfind : ([RegLetter.d, .x, .e, .y].find? i.writesReg).isSome = true :=
    List.find?_isSome.2 ⟨_, hc, writesReg_iff.2 ⟨d, o, ho, ht, rfl⟩⟩
  obtain ⟨c, hfound⟩ := Option.isSome_iff_exists.1 hfind
  obtain ⟨d', hd', -⟩ := h.dest (List.mem_of_find?_eq_some hfound) (List.find?_some hfound)
  exact ⟨d', by rw [newvalueDest_eq, hfound, Option.bind_some, hd']⟩

end Insn
end Hex
