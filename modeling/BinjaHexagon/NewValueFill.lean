import BinjaHexagon.NewValue
/-!
# NewValueFill — what `decode_fill_newvalue_regno` fills in

Over the list of one packet: the loop goes on filling operands as long as each has a producer, and rejects the packet at
the first that has none.
-/
namespace Hex

section Fill

/-- The instruction that stands where the `.new` operand `u` of the one at place `n` says. -/
structure Producer (l : List Insn) (n : Nat) (x : Insn) (u k : Nat) (y : Insn) : Prop where
  use : x.newvalueUse = some u
  ahead : Ahead l k n (x.reg u / 2)
  place : l[k]? = some y

/-- That instruction exists and writes a general register. -/
def HasProducer (l : List Insn) (n : Nat) (x : Insn) : Prop := ∃ u k y d, Producer l n x u k y ∧ y.IsDest d

/-- The operand is the register its producer writes, and nothing else has changed. -/
def FilledIn (l : List Insn) (n : Nat) (x x' : Insn) : Prop :=
  ∃ u k y d, Producer l n x u k y ∧ y.IsResult d ∧ x'.reg u = y.reg d ∧ (∀ m, m ≠ u → x'.reg m = x.reg m) ∧
    x.SameButRegno x'

/-- What the pass should do with a list. -/
structure NewvalueMeets (l : List Insn) : Prop where
  inside : ∀ (n : Nat) (x : Insn) (u : Nat), l[n]? = some x → x.takesNewvalue = true →
    x.newvalueUse = some u → u < x.opcode.regs.length ∧
      ∀ p ∈ (walkProducer l n (x.reg u / 2)).1, 0 ≤ p ∧ p < l.length
  rejected : fillNewvalueRegno l = none → ∃ n x, l[n]? = some x ∧ x.takesNewvalue = true ∧ ¬ HasProducer l n x
  filled : ∀ l', fillNewvalueRegno l = some l' → l'.length = l.length ∧ ∀ n x x', l[n]? = some x → l'[n]? = some x' →
    if x.takesNewvalue then FilledIn l n x x' else x' = x

/-- A list of whole instructions, then a duplex and an endloop, which take no `.new` register. -/
def NewvalueList (l : List Insn) : Prop :=
  ∃ a b, l = a ++ b ∧ (∀ i ∈ a, i.isSubInsn = false ∧ i.NewvalueRow) ∧ ∀ i ∈ b, i.takesNewvalue = false

variable {l : List Insn}

/-- Whatever stands before an instruction with a `.new` operand is a whole instruction, and so is that one. -/
theorem NewvalueList.whole (h : NewvalueList l) {n p : Nat} {x y : Insn} (hx : l[n]? = some x)
    (ht : x.takesNewvalue = true) (hp : p ≤ n) (hy : l[p]? = some y) : y.isSubInsn = false ∧ y.NewvalueRow := by
  obtain ⟨a, b, rfl, ha, hb⟩ := h
  have hn : n < a.length := by
    by_contra hge
    rw [List.getElem?_append_right (by omega)] at hx
    rw [hb x (List.mem_of_getElem? hx)] at ht
    cases ht
  rw [List.getElem?_append_left (by omega)] at hy
  exact ha y (List.mem_of_getElem? hy)

/-- The state of the loop at place `m`. -/
structure FilledTo (l : List Insn) (m : Nat) (cur : List Insn) : Prop where
  length : cur.length = l.length
  done : ∀ n x x', l[n]? = some x → cur[n]? = some x' → 0 < n → n < m → x.takesNewvalue = true → FilledIn l n x x'
  same : ∀ n x x', l[n]? = some x → cur[n]? = some x' → (0 < n → n < m → x.takesNewvalue = false) → x' = x

variable {m : Nat} {cur : List Insn}

theorem FilledTo.at_place (h : FilledTo l m cur) {n : Nat} {x : Insn} (hx : l[n]? = some x) :
    ∃ x', cur[n]? = some x' := by
  obtain ⟨hn, -⟩ := List.getElem?_eq_some_iff.1 hx
  exact ⟨_, List.getElem?_eq_getElem (by rw [h.length]; exact hn)⟩

theorem FilledTo.opcode (h : FilledTo l m cur) {n : Nat} {x x' : Insn} (hx : l[n]? = some x) (hx' : cur[n]? = some x') :
    x'.opcode = x.opcode := by
  by_cases hdone : 0 < n ∧ n < m ∧ x.takesNewvalue = true
  · obtain ⟨u, k, y, d, -, -, -, -, hsame⟩ := h.done n x x' hx hx' hdone.1 hdone.2.1 hdone.2.2
    exact hsame.opcode.symm
  · rw [h.same n x x' hx hx' fun hn hm => by
      by_contra ht
      exact hdone ⟨hn, hm, by simpa using ht⟩]

theorem FilledTo.map_opcode (h : FilledTo l m cur) : cur.map Insn.opcode = l.map Insn.opcode := by
  apply List.ext_getElem?
  intro n
  rw [List.getElem?_map, List.getElem?_map]
  cases hx : l[n]? with
  | none => rw [List.getElem?_eq_none (by rw [h.length]; exact List.getElem?_eq_none_iff.1 hx)]
  | some x =>
    obtain ⟨x', hx'⟩ := h.at_place hx
    rw [hx', Option.map_some, Option.map_some, h.opcode hx hx']

theorem any_opcode_congr (h : cur.map Insn.opcode = l.map Insn.opcode) (f : Opcode → Bool) (p : Nat) :
    (cur[p]?.any fun x => f x.opcode) = l[p]?.any fun x => f x.opcode := by
  have hp := congrArg (·[p]?) h
  simp only [List.getElem?_map] at hp
  have hany : ∀ o : Option Insn, (o.any fun x => f x.opcode) = (o.map Insn.opcode).any f := fun o => by
    cases o <;> rfl
  rw [hany, hany, hp]

theorem counted_congr (h : cur.map Insn.opcode = l.map Insn.opcode) (p : Nat) : counted cur p = counted l p := by
  have hsub : (cur[p - 1]?.any fun x => x.isSubInsn) = l[p - 1]?.any fun x => x.isSubInsn :=
    any_opcode_congr h (fun o => o.attrib .subinsn) (p - 1)
  unfold counted
  rw [hsub]
  exact any_opcode_congr h (fun o => !o.attrib .itExtender && !(o.attrib .subinsn && p != 0 &&
    l[p - 1]?.any fun x => x.isSubInsn)) p

theorem ahead_congr (h : cur.map Insn.opcode = l.map Insn.opcode) {k n a : Nat} : Ahead cur k n a ↔ Ahead l k n a := by
  have hcount : counted cur = counted l := funext (counted_congr h)
  constructor
  · rintro ⟨hlt, hk, hd⟩
    rw [distance, hcount] at hd
    exact ⟨hlt, hcount ▸ hk, hd⟩
  · rintro ⟨hlt, hk, hd⟩
    rw [distance, ← hcount] at hd
    exact ⟨hlt, hcount ▸ hk, hd⟩

/-- The register a producer writes is the same whether or not its own `.new` operand is filled in. -/
theorem FilledTo.reg_dest (h : FilledTo l m cur) {k d : Nat} {y y' : Insn} (hy : l[k]? = some y)
    (hy' : cur[k]? = some y') (hrow : y.NewvalueRow) (hd : y.IsDest d) : y'.reg d = y.reg d := by
  by_cases hdone : 0 < k ∧ k < m ∧ y.takesNewvalue = true
  · obtain ⟨u, j, z, e, hprod, -, -, hother, -⟩ := h.done k y y' hy hy' hdone.1 hdone.2.1 hdone.2.2
    refine hother d fun hdu => ?_
    -- the operand filled in is a `.new` register, not a general one
    obtain ⟨u', o, hu', ho, ht⟩ := hrow.use hdone.2.2
    obtain rfl : u' = u := Option.some.inj (hu'.symm.trans hprod.use)
    obtain ⟨o', ho', ht', -⟩ := hd
    rw [hdu, ho] at ho'
    cases ho'
    rw [ht] at ht'
    cases ht'
  · rw [h.same k y y' hy hy' fun hk hm => by
      by_contra ht
      exact hdone ⟨hk, hm, by simpa using ht⟩]

theorem setRegno_eq {x : Insn} {u r : Nat} {o : OperandDecl} (ho : x.opcode.regs[u]? = some o) (ht : o.regtype = .N)
    (hu : u < x.regno.length) (hr : r < 32) :
    ∃ x', x.setRegno u r = some x' ∧ x'.reg u = r ∧ ∀ m, m ≠ u → x'.reg m = x.reg m := by
  have hlimit : o.limit = 32 := by
    rw [OperandDecl.limit, ht]
    rfl
  have hfits : (x.opcode.regs[u]?).all (fun d => decide (r < d.limit)) = true := by
    rw [ho, Option.all_some, hlimit]
    exact decide_eq_true hr
  unfold Insn.setRegno
  rw [dif_pos hfits]
  refine ⟨_, rfl, ?_, fun m hm => ?_⟩
  · rw [Insn.reg, List.getD_eq_getElem?_getD, List.getElem?_set_self hu, Option.getD_some]
  · rw [Insn.reg, List.getD_eq_getElem?_getD, List.getElem?_set_ne (Ne.symm hm), ← List.getD_eq_getElem?_getD, Insn.reg]

theorem Insn.IsDest.reg_lt {y : Insn} {d : Nat} (hd : y.IsDest d) : y.reg d < 32 := by
  obtain ⟨o, ho, ht, -⟩ := hd
  have hlt := y.regno_lt d o ho
  rwa [OperandDecl.limit, ht, if_neg (by decide)] at hlt

theorem Insn.newvalueDest_opcode {y y' : Insn} (h : y'.opcode = y.opcode) : y'.newvalueDest = y.newvalueDest := by
  unfold newvalueDest writesReg regIndex
  rw [h]

theorem fillStep_other {n : Nat} (h : ∀ x, cur[n]? = some x → x.takesNewvalue = false) : fillStep cur n = some cur := by
  unfold fillStep
  cases hx : cur[n]? with
  | none => rfl
  | some x => simp only [show (x.attrib .dotnewvalue && !x.attrib .extension) = false from h x hx, Bool.false_eq_true,
      if_false]

theorem fillStep_take {n u : Nat} {x : Insn} (hx : cur[n]? = some x) (ht : x.takesNewvalue = true)
    (hu : x.newvalueUse = some u) : fillStep cur n =
      if x.reg u / 2 = 0 then none
      else (findProducer cur n (x.reg u / 2)).bind fun k => (cur[k]?).bind fun y => y.newvalueDest.bind fun d =>
        (x.setRegno u (y.reg d)).bind fun x' => some (cur.set n x') := by
  unfold fillStep
  rw [hx]
  simp only [show (x.attrib .dotnewvalue && !x.attrib .extension) = true from ht, if_true]
  unfold Insn.newvalueUse at hu
  rw [hu]
  simp only [bind, Option.bind_some]

theorem FilledTo.at_self (h : FilledTo l m cur) {x : Insn} (hx : l[m]? = some x) : cur[m]? = some x := by
  obtain ⟨x', hx'⟩ := h.at_place hx
  rw [hx', h.same m x x' hx hx' fun _ hm => absurd hm (Nat.lt_irrefl m)]

theorem FilledTo.findProducer_iff (hl : NewvalueList l) (h : FilledTo l m cur) {x : Insn} (hx : l[m]? = some x)
    (ht : x.takesNewvalue = true) {a k : Nat} (ha : a ≠ 0) : findProducer cur m a = some k ↔ Ahead l k m a := by
  obtain ⟨hm, -⟩ := List.getElem?_eq_some_iff.1 hx
  have hsub : ∀ p y', p < m → cur[p]? = some y' → y'.isSubInsn = false := fun p y' hp hy' => by
    have hy : l[p]? = some l[p] := List.getElem?_eq_getElem (by omega)
    have hwhole := (hl.whole hx ht (by omega) hy).1
    unfold Insn.isSubInsn Insn.attrib at hwhole ⊢
    rw [h.opcode hy hy', hwhole]
  rw [Hex.findProducer_iff (by rw [h.length]; omega) hsub, ahead_congr h.map_opcode]
  simp [ha]

theorem FilledTo.skip (h : FilledTo l m cur) (hother : ∀ x, l[m]? = some x → x.takesNewvalue = false) :
    FilledTo l (m + 1) cur := by
  refine ⟨h.length, fun n x x' hx hx' hn hm ht => ?_, fun n x x' hx hx' hno => ?_⟩
  · refine h.done n x x' hx hx' hn (Nat.lt_of_le_of_ne (Nat.le_of_lt_succ hm) fun hnm => ?_) ht
    rw [hother x (hnm ▸ hx)] at ht
    cases ht
  · exact h.same n x x' hx hx' fun hn hm => hno hn (Nat.lt_succ_of_lt hm)

theorem FilledTo.fill (h : FilledTo l m cur) {x x' : Insn} (hx : l[m]? = some x) (hm : 0 < m)
    (ht : x.takesNewvalue = true) (hfilled : FilledIn l m x x') : FilledTo l (m + 1) (cur.set m x') := by
  obtain ⟨hlt, -⟩ := List.getElem?_eq_some_iff.1 hx
  have hself : (cur.set m x')[m]? = some x' := List.getElem?_set_self (by rw [h.length]; exact hlt)
  refine ⟨by rw [List.length_set, h.length], fun n z z' hz hz' hn hnm htz => ?_, fun n z z' hz hz' hno => ?_⟩
  · by_cases hnm' : n = m
    · subst hnm'
      rw [hx] at hz
      rw [hself] at hz'
      cases hz
      cases hz'
      exact hfilled
    · rw [List.getElem?_set_ne (Ne.symm hnm')] at hz'
      exact h.done n z z' hz hz' hn (by omega) htz
  · by_cases hnm' : n = m
    · subst hnm'
      rw [hx] at hz
      cases hz
      rw [hno hm (Nat.lt_succ_self n)] at ht
      cases ht
    · rw [List.getElem?_set_ne (Ne.symm hnm')] at hz'
      exact h.same n z z' hz hz' fun hn hlt => hno hn (Nat.lt_succ_of_lt hlt)

/-- **One turn of the loop**: the operand has a producer and is filled in, or has none and the packet is rejected. -/
theorem FilledTo.step (hl : NewvalueList l) (h : FilledTo l m cur) (hm : 0 < m) :
    (∃ cur', fillStep cur m = some cur' ∧ FilledTo l (m + 1) cur' ∧
      ∀ x, l[m]? = some x → x.takesNewvalue = true → HasProducer l m x) ∨
    fillStep cur m = none ∧ ∃ x, l[m]? = some x ∧ x.takesNewvalue = true ∧ ¬ HasProducer l m x := by
  by_cases htaker : ∃ x, l[m]? = some x ∧ x.takesNewvalue = true
  · obtain ⟨x, hx, ht⟩ := htaker
    have hrow := (hl.whole hx ht (Nat.le_refl m) hx).2
    obtain ⟨u, o, hu, ho, hN⟩ := hrow.use ht
    have hstep := fillStep_take (h.at_self hx) ht hu
    have hfind := fun {a k : Nat} => h.findProducer_iff hl hx ht (a := a) (k := k)
    have hbefore : ∀ {k y}, k < m → l[k]? = some y → y.NewvalueRow := fun hk hy =>
      (hl.whole hx ht (Nat.le_of_lt hk) hy).2
    by_cases hprod : HasProducer l m x
    · left
      obtain ⟨u', k, y, d₀, ⟨hu', hahead, hy⟩, hd₀⟩ := hprod
      obtain rfl : u' = u := Option.some.inj (hu'.symm.trans hu)
      have hyrow := hbefore hahead.lt hy
      obtain ⟨d, hd⟩ := hyrow.newvalueDest_of_dest hd₀
      have hresult := hyrow.newvalueDest_some hd
      obtain ⟨y', hy'⟩ := h.at_place hy
      have hreg := h.reg_dest hy hy' hyrow hresult.1
      obtain ⟨hlt, -⟩ := List.getElem?_eq_some_iff.1 ho
      obtain ⟨x', hx', hxu, hother⟩ := setRegno_eq ho hN (Nat.lt_of_lt_of_le hlt hrow.filled) hresult.1.reg_lt
      have ha : x.reg u' / 2 ≠ 0 := Nat.ne_of_gt hahead.pos
      refine ⟨cur.set m x', ?_, ?_, fun z hz _ => ?_⟩
      · rw [hstep, if_neg ha, (hfind ha).2 hahead, Option.bind_some, hy', Option.bind_some,
          Insn.newvalueDest_opcode (h.opcode hy hy'), hd, Option.bind_some, hreg, hx', Option.bind_some]
      · exact h.fill hx hm ht ⟨u', k, y, d, ⟨hu, hahead, hy⟩, hresult, hxu, hother, Insn.setRegno_same hx'⟩
      · rw [hx] at hz
        cases hz
        exact ⟨u', k, y, d, ⟨hu, hahead, hy⟩, hresult.1⟩
    · right
      refine ⟨?_, x, hx, ht, hprod⟩
      rw [hstep]
      by_cases ha : x.reg u / 2 = 0
      · rw [if_pos ha]
      · rw [if_neg ha, Option.eq_none_iff_forall_ne_some]
        intro cur' hcur'
        simp only [Option.bind_eq_some_iff] at hcur'
        obtain ⟨k, hk, y', hy', d, hd, -⟩ := hcur'
        have hahead := (hfind ha).1 hk
        have hlt := hahead.lt
        obtain ⟨hmlt, -⟩ := List.getElem?_eq_some_iff.1 hx
        have hy : l[k]? = some l[k] := List.getElem?_eq_getElem (by omega)
        rw [Insn.newvalueDest_opcode (h.opcode hy hy')] at hd
        exact hprod ⟨u, k, _, d, ⟨hu, hahead, hy⟩, ((hbefore hlt hy).newvalueDest_some hd).1⟩
  · left
    have hother : ∀ x, l[m]? = some x → x.takesNewvalue = false := fun x hx => by
      by_contra ht
      exact htaker ⟨x, hx, by simpa using ht⟩
    refine ⟨cur, fillStep_other fun x' hx' => ?_, h.skip hother, fun x hx ht => absurd ⟨x, hx, ht⟩ htaker⟩
    obtain ⟨hlt, -⟩ := List.getElem?_eq_some_iff.1 hx'
    rw [h.length] at hlt
    have hx : l[m]? = some l[m] := List.getElem?_eq_getElem hlt
    rw [h.at_self hx] at hx'
    cases hx'
    exact hother _ hx

/-- **The whole loop.** -/
theorem FilledTo.loop (hl : NewvalueList l) : ∀ {k m : Nat} {cur : List Insn}, FilledTo l m cur → 0 < m →
    (∃ l', fillLoop m k cur = some l' ∧ FilledTo l (m + k) l' ∧
      ∀ n x, m ≤ n → n < m + k → l[n]? = some x → x.takesNewvalue = true → HasProducer l n x) ∨
    fillLoop m k cur = none ∧ ∃ n x, 0 < n ∧ l[n]? = some x ∧ x.takesNewvalue = true ∧ ¬ HasProducer l n x
  | 0, m, cur, h, _ => .inl ⟨cur, rfl, h, fun n x hn hlt => by omega⟩
  | k + 1, m, cur, h, hm => by
    rw [fillLoop]
    rcases h.step hl hm with ⟨cur', hstep, h', hhere⟩ | ⟨hstep, x, hx⟩
    · rw [hstep, Option.bind_some]
      rcases FilledTo.loop hl (k := k) h' (Nat.succ_pos m) with ⟨l', hl', hdone, hall⟩ | hnone
      · refine .inl ⟨l', hl', by rw [← Nat.add_assoc, Nat.add_right_comm]; exact hdone, fun n x hn hlt hx ht => ?_⟩
        rcases Nat.eq_or_lt_of_le hn with rfl | hn
        · exact hhere x hx ht
        · exact hall n x hn (by omega) hx ht
      · exact .inr hnone
    · rw [hstep, Option.bind_none]
      exact .inr ⟨rfl, m, x, hm, hx⟩

/-- **The pass does what it should exactly when the first instruction takes no `.new` register**, or some other `.new`
operand has no producer, for which the packet is rejected anyway. -/
theorem newvalueMeets_iff (hl : NewvalueList l) : NewvalueMeets l ↔ (∀ x, l[0]? = some x → x.takesNewvalue = false) ∨
    ∃ n x, 0 < n ∧ l[n]? = some x ∧ x.takesNewvalue = true ∧ ¬ HasProducer l n x := by
  have hstart : FilledTo l 1 l := by
    refine ⟨rfl, fun n x x' hx hx' hn hm _ => by omega, fun n x x' hx hx' _ => ?_⟩
    rw [hx] at hx'
    exact (Option.some.inj hx').symm
  have hinside : ∀ (n : Nat) (x : Insn) (u : Nat), l[n]? = some x → x.takesNewvalue = true → x.newvalueUse = some u →
      u < x.opcode.regs.length ∧ ∀ p ∈ (walkProducer l n (x.reg u / 2)).1, 0 ≤ p ∧ p < l.length :=
    fun n x u hx ht hu => by
      obtain ⟨hn, -⟩ := List.getElem?_eq_some_iff.1 hx
      obtain ⟨u', o, hu', ho, -⟩ := (hl.whole hx ht (Nat.le_refl n) hx).2.use ht
      obtain rfl : u' = u := Option.some.inj (hu'.symm.trans hu)
      obtain ⟨hlt, -⟩ := List.getElem?_eq_some_iff.1 ho
      refine ⟨hlt, fun p hp => ?_⟩
      have := (walkProducer_spec n (x.reg u' / 2) hn).1 p hp
      omega
  rcases hstart.loop hl (k := l.length - 1) (Nat.zero_lt_one) with ⟨l', hl', hdone, hall⟩ | ⟨hnone, hlack⟩
  · constructor
    · intro h
      left
      intro x hx
      by_contra ht
      obtain ⟨x', hx'⟩ := hdone.at_place hx
      have hfilled := (h.filled l' hl').2 0 x x' hx hx'
      rw [if_pos (by simpa using ht)] at hfilled
      obtain ⟨u, k, y, d, hprod, -⟩ := hfilled
      exact absurd hprod.ahead.lt (Nat.not_lt_zero k)
    · intro h
      refine ⟨hinside, fun hnone => ?_, fun l'' hl'' => ?_⟩
      · rw [fillNewvalueRegno, hl'] at hnone
        cases hnone
      · rw [fillNewvalueRegno, hl'] at hl''
        cases hl''
        refine ⟨hdone.length, fun n x x' hx hx' => ?_⟩
        obtain ⟨hn, -⟩ := List.getElem?_eq_some_iff.1 hx
        by_cases ht : x.takesNewvalue = true
        · rw [if_pos ht]
          refine hdone.done n x x' hx hx' (Nat.pos_of_ne_zero fun h0 => ?_) (by omega) ht
          subst h0
          rcases h with h | ⟨j, z, hj, hz, htz, hlack⟩
          · rw [h x hx] at ht
            cases ht
          · obtain ⟨hjlt, -⟩ := List.getElem?_eq_some_iff.1 hz
            exact hlack (hall j z hj (by omega) hz htz)
        · rw [if_neg ht]
          exact hdone.same n x x' hx hx' fun _ _ => by simpa using ht
  · constructor
    · intro _
      exact .inr hlack
    · intro _
      refine ⟨hinside, fun _ => ?_, fun l'' hl'' => ?_⟩
      · obtain ⟨n, x, -, hx⟩ := hlack
        exact ⟨n, x, hx⟩
      · rw [fillNewvalueRegno, hnone] at hl''
        cases hl''

end Fill

/-- What is used of the generated tables: their rows, and that no half of a duplex takes a `.new` register. -/
structure NewvalueTables (T : DecodeTables) : Prop where
  row : ∀ ext w, ∀ i ∈ T.root32 ext w, i.NewvalueRow
  half : ∀ ext w, ∀ p ∈ T.rootEe ext w, (∀ i ∈ p.1, i.takesNewvalue = false) ∧ ∀ i ∈ p.2, i.takesNewvalue = false

section Tables

variable {T : DecodeTables} {words : List (BitVec 32)}

theorem NewvalueTables.word (hT : NewvalueTables T) {ext : Bool} {n : Nat} {w : BitVec 32} {writes : List Nat}
    {is : List Insn} (h : T.decodeInsns ext n w = (writes, some is)) :
    (∃ i, is = [i] ∧ i.isSubInsn = false ∧ i.NewvalueRow) ∨
      isPacketEnd w = true ∧ ∀ i ∈ is, i.takesNewvalue = false := by
  unfold DecodeTables.decodeInsns at h
  split at h
  · split at h
    · cases h
    · rename_i i hi
      split at h
      · cases h
      · cases h
        exact .inl ⟨i, rfl, (T.root32_fresh ext w i hi).isSubInsn, hT.row ext w i hi⟩
  · rename_i hw
    have hbits : parseBits w = 0 := by simpa using hw
    have hend : isPacketEnd w = true := by rw [isPacketEnd, hbits]; rfl
    split at h
    · cases h
    · cases h
    · cases h
    · cases h
    · rename_i b a hba
      obtain ⟨hb, ha⟩ := hT.half ext w _ hba
      split at h
      · cases h
      · cases h
        refine .inr ⟨hend, fun i hi => ?_⟩
        rcases List.mem_cons.1 hi with rfl | hi
        · exact hb _ rfl
        · rw [List.mem_singleton.1 hi]
          exact ha _ rfl

theorem NewvalueTables.gather (hT : NewvalueTables T) : ∀ (words : List (BitVec 32)) (ext : Bool) (n : Nat),
    NewvalueList (Hex.gather T ext n words).insn
  | [], _, _ => ⟨[], [], rfl, fun _ h => absurd h List.not_mem_nil, fun _ h => absurd h List.not_mem_nil⟩
  | w :: ws, ext, n => by
    rcases hd : T.decodeInsns ext n w with ⟨writes, _ | is⟩
    · rw [gather_failed hd]
      exact ⟨[], [], rfl, fun _ h => absurd h List.not_mem_nil, fun _ h => absurd h List.not_mem_nil⟩
    · have hcons : ∃ i l, is = i :: l := by
        rcases decodeInsns_some hd with ⟨i, rfl, -⟩ | ⟨-, b, a, rfl, -⟩
        exacts [⟨i, [], rfl⟩, ⟨b, [a], rfl⟩]
      obtain ⟨i, l, rfl⟩ := hcons
      cases hw : isPacketEnd w with
      | true =>
        rw [gather_end hd hw]
        rcases hT.word hd with ⟨j, hj, hrow⟩ | ⟨-, hnone⟩
        · cases hj
          exact ⟨[i], [], rfl, fun k hk => by rw [List.mem_singleton.1 hk]; exact hrow,
            fun _ h => absurd h List.not_mem_nil⟩
        · exact ⟨[], i :: l, rfl, fun _ h => absurd h List.not_mem_nil, hnone⟩
      | false =>
        rw [gather_next hd hw]
        rcases hT.word hd with ⟨j, hj, hrow⟩ | ⟨hend, -⟩
        · cases hj
          obtain ⟨a, b, hab, ha, hb⟩ := NewvalueTables.gather hT ws i.isExtender (n + (([] : List Insn).length + 1))
          exact ⟨i :: a, b, by rw [hab]; rfl, List.forall_mem_cons.2 ⟨hrow, ha⟩, hb⟩
        · rw [hw] at hend
          cases hend

/-- What the extenders leave of an instruction for this pass. -/
def SameOperands (i j : Insn) : Prop := i.opcode = j.opcode ∧ i.regno = j.regno

theorem SameOperands.row {i j : Insn} (h : SameOperands i j) (hi : i.NewvalueRow) : j.NewvalueRow := by
  obtain ⟨hop, hreg⟩ := h
  obtain ⟨hletters, hfilled, huse⟩ := hi
  refine ⟨hop ▸ hletters, ?_, ?_⟩
  · rw [← hop, ← hreg]
    exact hfilled
  · unfold Insn.takesNewvalue Insn.newvalueUse Insn.regIndex Insn.attrib at *
    rw [← hop]
    exact huse

theorem applyExtenders_operands : ∀ {e : Option (BitVec 32)} {l l' : List Insn}, applyExtenders T e l = some l' →
    List.Forall₂ SameOperands l l'
  | none, [], l', h => by
    cases h
    exact .nil
  | some e, [], l', h => by
    obtain ⟨-, -, rfl⟩ := Option.map_eq_some_iff.1 h
    exact .nil
  | e, i :: l, l', h => by
    obtain ⟨i', hi, l'', hl, h⟩ := applyExtenders_cons h
    cases h
    refine .cons ?_ (applyExtenders_operands hl)
    cases e with
    | none =>
      cases hi
      exact ⟨rfl, rfl⟩
    | some e =>
      simp only [applyExtender, bind, Option.bind_eq_some_iff] at hi
      obtain ⟨n, -, hi⟩ := hi
      cases hi
      exact ⟨rfl, rfl⟩

theorem newvalueList_passInput (hT : NewvalueTables T) {l : List Insn} (h : passInput T words = some l) :
    NewvalueList l := by
  obtain ⟨pre, last, hp, hl⟩ := passInput_some h
  obtain ⟨a, b, hab, ha, hb⟩ := hT.gather (words.take (maxWords words.length)) false 0
  have hsame := applyExtenders_operands hl
  rw [Gathered.encoded, hab, List.append_assoc] at hsame
  obtain ⟨a', b', rfl, ha', hb'⟩ := exists_of_forall₂_append hsame
  refine ⟨a', b', rfl, fun j hj => ?_, fun j hj => ?_⟩
  · obtain ⟨i, hi, hij⟩ := exists_of_mem_forall₂ ha' hj
    refine ⟨?_, hij.row (ha i hi).2⟩
    unfold Insn.isSubInsn Insn.attrib
    rw [← hij.1]
    exact (ha i hi).1
  · obtain ⟨i, hi, hij⟩ := exists_of_mem_forall₂ hb' hj
    unfold Insn.takesNewvalue Insn.attrib
    rw [← hij.1]
    rcases List.mem_append.1 hi with hi | hi
    · exact hb i hi
    · have hends := (endloopInsn_some (Option.mem_toList.1 hi)).1
      have hlacks : i.attrib .dotnewvalue = false := Insn.endsLoop_lacks hends (by decide)
      rw [Insn.attrib] at hlacks
      rw [hlacks, Bool.false_and]

end Tables

/-- **Every `.new` operand of a decoded list is resolved or rejected as it should be exactly when the first instruction
takes no `.new` register**, or another of them has no producer. -/
theorem newvalue_resolved_iff (T : DecodeTables) (hT : NewvalueTables T) (words : List (BitVec 32)) (l : List Insn)
    (h : passInput T words = some l) : NewvalueMeets l ↔ (∀ x, l[0]? = some x → x.takesNewvalue = false) ∨
      ∃ n x, 0 < n ∧ l[n]? = some x ∧ x.takesNewvalue = true ∧ ¬ HasProducer l n x :=
  newvalueMeets_iff (newvalueList_passInput hT h)

namespace Opcodes

/-- `Nt8.new` -/
def nt : OperandDecl := ⟨.N, ⟨.t, false⟩, true⟩

/-- `memw(Rs32+#s11:2)=Nt8.new` -/
def s2StorerinewIo : Opcode where
  tag := .other 29
  attribs := [.store, .dotnewvalue, .extendable]
  regs := [rs, nt]
  parts := [.block [.fImmext .s, .assg .ea (add (val rs) (.operand (.imm .s))),
    .fStore 4 (.call1 .fNewregSt (.operand (.regNew .N ⟨.t, false⟩)))]]
  supported := true
  generated _ := by decide
  wellScoped _ := by decide
  hint_not_call := by decide

theorem s2StorerinewIo_fits : ∀ d ∈ s2StorerinewIo.regs.zipIdx, [0, 2].getD d.2 0 < d.1.limit := by
  decide

theorem a2Addi_fits : ∀ d ∈ a2Addi.regs.zipIdx, [0, 1].getD d.2 0 < d.1.limit := by
  decide

end Opcodes

/-- `r0=add(r1,#0)`, and a store to `r0` of what the instruction before it writes. -/
def storeNewTables : DecodeTables :=
  wordTables [(0xb0010000, Opcodes.a2Addi.insn [0, 1] [0] Opcodes.a2Addi_fits),
    (0xa1a01200, Opcodes.s2StorerinewIo.insn [0, 2] [0] Opcodes.s2StorerinewIo_fits)]

theorem newvalueTables_wordTables {entries : List (BitVec 32 × Insn)} (h : ∀ e ∈ entries, e.2.NewvalueRow) :
    NewvalueTables (wordTables entries) := by
  refine ⟨fun ext w i hi => ?_, fun ext w p hp => by cases hp⟩
  obtain ⟨e, he, rfl⟩ := Option.map_eq_some_iff.1 hi
  have hsame : SameOperands e.2 { e.2 with part1 := false, extensionValid := ext } := ⟨rfl, rfl⟩
  exact hsame.row (h e (List.mem_of_find?_eq_some he))

theorem storeNewTables_newvalue : NewvalueTables storeNewTables := by
  refine newvalueTables_wordTables fun e he => ?_
  rcases List.mem_cons.1 he with rfl | he
  · exact ⟨by decide, by decide, fun h => absurd h (by decide)⟩
  · rw [List.mem_singleton.1 he]
    exact ⟨by decide, by decide, fun _ => ⟨1, Opcodes.nt, rfl, rfl, rfl⟩⟩

/-- `{ r0=add(r1,#0); memw(r0+#0)=r0.new }` -/
theorem newvalue_resolved_store : ∃ l, passInput storeNewTables [0xb0014000, 0xa1a0d200] = some l ∧
    NewvalueMeets l := by
  refine ⟨_, rfl, (newvalue_resolved_iff storeNewTables storeNewTables_newvalue [0xb0014000, 0xa1a0d200] _ rfl).2
    (.inl fun x hx => ?_)⟩
  cases hx
  rfl

/-- A store alone in its packet keeps the encoded distance as its register. -/
theorem newvalue_unresolved : ∃ l, passInput storeNewTables [0xa1a0d200] = some l ∧ ¬ NewvalueMeets l := by
  refine ⟨_, rfl, fun h => ?_⟩
  have hlist := @newvalueList_passInput _ [0xa1a0d200] storeNewTables_newvalue _ rfl
  rcases (newvalueMeets_iff hlist).1 h with hfirst | ⟨n, x, hn, hx, -⟩
  · exact absurd (hfirst _ rfl) (by decide)
  · cases n with
    | zero => exact absurd hn (Nat.lt_irrefl 0)
    | succ n => cases hx

end Hex
