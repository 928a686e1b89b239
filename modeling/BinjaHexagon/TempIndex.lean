import BinjaHexagon.Exec
import BinjaHexagon.FlowPath
/-!
# TempIndex — the lifter's variables and the indices they are given

The lifter thinks of its temporaries as variables (`Temp`), LLIL knows indices.  `varSem` runs a block with every
variable in a place of its own; the emitted block does the same as long as each step finds its variables the last to be
set at their indices.
-/
namespace Hex

open Flow (Block Sem Along)

def LReg.temp? {τ : Type} : LReg τ → Option τ
  | .hex _ => none
  | .temp t => some t

theorem LReg.temp?_eq {τ : Type} {l : LReg τ} {t : τ} : l.temp? = some t ↔ l = .temp t := by
  cases l with
  | hex r => simp [LReg.temp?]
  | temp u => simp [LReg.temp?]

/-- One step of a packet: an act or a test. -/
abbrev Step := LiftAct ⊕ LExpr Temp

/-- The expressions a step evaluates; an `IlBranch` is not written out. -/
def Step.exprs : Step → List (LExpr Temp)
  | .inl (.il x) => x.exprs
  | .inl (.branch _ _) => []
  | .inr c => [c]

/-- What it reads, with the size of the access. -/
def Step.reads : Step → List (Nat × LReg Temp)
  | .inl (.il x) => x.exprs.flatMap IlExpr.reads
  | .inl (.branch _ _) => []
  | .inr c => c.reads

/-- What it writes. -/
def Step.writes : Step → List (Nat × LReg Temp)
  | .inl (.il x) => x.dests
  | .inl (.branch _ _) | .inr _ => []

/-- The variables a step reads and sets. -/
def Step.access : Step → Access Temp
  | .inl (.il i) => (Access.ofInsn i).filterMap LReg.temp?
  | .inl (.branch _ _) => ⟨[], []⟩
  | .inr c => (Access.ofExpr c).filterMap LReg.temp?

/-- The variable set last at an index. -/
def lastSet (pre : List (Access Temp)) (k : Nat) : Option Temp :=
  (pre.flatMap Access.sets).reverse.find? (·.index == k)

/-- Whatever the step reads is the variable set last at its index, if one was. -/
def Own (pre : List (Access Temp)) (a : Access Temp) : Prop := ∀ t ∈ a.uses, ∀ u ∈ lastSet pre t.index, u = t

theorem lastSet_append (l m : List (Access Temp)) (k : Nat) :
    lastSet (l ++ m) k = (lastSet m k).or (lastSet l k) := by
  simp only [lastSet, List.flatMap_append, List.reverse_append, List.find?_append]

theorem mem_of_lastSet {l : List (Access Temp)} {k : Nat} {u : Temp} (h : lastSet l k = some u) :
    u.index = k ∧ ∃ a ∈ l, u ∈ a.sets := by
  refine ⟨by simpa using List.find?_some h, ?_⟩
  have hmem := List.mem_of_find?_eq_some h
  rwa [List.mem_reverse, List.mem_flatMap] at hmem

theorem lastSet_of_mem {l : List (Access Temp)} {a : Access Temp} {u : Temp} (ha : a ∈ l) (hu : u ∈ a.sets) :
    ∃ w, lastSet l u.index = some w := by
  cases h : lastSet l u.index with
  | some w => exact ⟨w, rfl⟩
  | none =>
    have := List.find?_eq_none.1 h u (List.mem_reverse.2 (List.mem_flatMap.2 ⟨a, ha, hu⟩))
    exact absurd (beq_self_eq_true _) this

namespace Temp

def isScratch : Temp → Bool
  | .ea | .tmp | .width | .offset | .shamt => true
  | _ => false

/-- The copy of a source pair. -/
def isPair : Temp → Bool
  | .reg 1 _ => true
  | _ => false

/-- The variables of a packet of up to ten instructions. -/
def Valid : Temp → Prop
  | .reg ss r => ss ≤ 1 ∧ r < numHexRegs
  | .branchrDest n | .branchTaken n => n < 10
  | _ => True

/-- **Only a scratch variable and the copy of a source pair can share an index.** -/
theorem eq_of_index {t u : Temp} (ht : t.Valid) (hu : u.Valid) (h : t.index = u.index) :
    t = u ∨ (t.isPair = true ∧ u.isScratch = true) ∨ (t.isScratch = true ∧ u.isPair = true) := by
  have hss : ∀ {ss r : Nat}, (Temp.reg ss r).Valid → ss = 0 ∧ (Temp.reg ss r).index = r ∧ r < 100 ∨
      ss = 1 ∧ (Temp.reg ss r).index = 100 + r ∧ r < 100 := by
    intro ss r hv
    have h1 := hv.1
    have h2 : r < 100 := hv.2
    rcases ss with _ | _ | ss
    · exact .inl ⟨rfl, by simp [index], h2⟩
    · exact .inr ⟨rfl, by simp [index, numHexRegs], h2⟩
    · omega
  cases t with
  | reg ss r =>
    rcases hss ht with ⟨rfl, hi, hr⟩ | ⟨rfl, hi, hr⟩ <;> rw [hi] at h <;> cases u with
    | reg ss' r' =>
      rcases hss hu with ⟨rfl, hi', hr'⟩ | ⟨rfl, hi', hr'⟩ <;> rw [hi'] at h
      · first | (exfalso; omega) | exact .inl (congrArg _ (by omega))
      · first | (exfalso; omega) | exact .inl (congrArg _ (by omega))
    | branchrDest n | branchTaken n => simp only [index, Valid] at h hu; omega
    | _ => first | exact .inr (.inl ⟨rfl, rfl⟩) | (simp only [index] at h; omega)
  | branchrDest n =>
    cases u with
    | reg ss' r' => rcases hss hu with ⟨rfl, hi', hr'⟩ | ⟨rfl, hi', hr'⟩ <;> rw [hi', index] at h <;> omega
    | branchrDest m => simp only [index] at h; exact .inl (congrArg _ (by omega))
    | branchTaken m => simp only [index, Valid] at h ht; omega
    | _ => simp only [index] at h; omega
  | branchTaken n =>
    cases u with
    | reg ss' r' => rcases hss hu with ⟨rfl, hi', hr'⟩ | ⟨rfl, hi', hr'⟩ <;> rw [hi', index] at h <;> omega
    | branchrDest m => simp only [index, Valid] at h hu; omega
    | branchTaken m => simp only [index] at h; exact .inl (congrArg _ (by omega))
    | _ => simp only [index] at h; omega
  | _ =>
    cases u with
    | reg ss' r' =>
      rcases hss hu with ⟨rfl, hi', hr'⟩ | ⟨rfl, hi', hr'⟩ <;> rw [hi'] at h <;> simp only [index] at h
      · omega
      · exact .inr (.inr ⟨rfl, rfl⟩)
    | branchrDest n | branchTaken n => simp only [index] at h; omega
    | _ => simp only [index] at h; first | exact .inl rfl | omega

end Temp

/-- Only variables of the packet were set. -/
def Valids (pre : List (Access Temp)) : Prop := ∀ a ∈ pre, ∀ u ∈ a.sets, u.Valid

/-- A variable that shares its index with no other is always found. -/
theorem own_of_solo {pre : List (Access Temp)} (hp : Valids pre) {t : Temp} (ht : t.Valid)
    (hsolo : t.isPair = false ∧ t.isScratch = false) : ∀ u ∈ lastSet pre t.index, u = t := by
  intro u hu
  obtain ⟨hi, a, ha, hua⟩ := mem_of_lastSet hu
  rcases Temp.eq_of_index (hp a ha u hua) ht hi with h | ⟨-, h⟩ | ⟨-, h⟩
  · exact h
  · rw [hsolo.2] at h; cases h
  · rw [hsolo.1] at h; cases h

section Refinement

/-- A block run with a place for every variable. -/
def varSem : Sem LiftAct (LExpr Temp) (State Temp) where
  exec
    | .il i, s => i.exec s
    | .branch _ _, s => s
  test := IlExpr.test

/-- What every variable finds at its index. -/
def State.vars (s : PhysState) : State Temp := ⟨s.reg, fun t => s.temp t.index, s.mem⟩

/-- The bytes of a variable that count: a scratch variable and a pair are only as long as their size. -/
def Temp.Holds : Temp → Nat → Prop
  | .ea, i => i < 4
  | .tmp, i | .width, i | .offset, i | .shamt, i | .reg 1 _, i => i < 8
  | _, _ => True

theorem IlExpr.size_map {ρ ρ' κ : Type} (f : ρ → ρ') (e : IlExpr ρ κ) : (e.map f).size = e.size := by cases e <;> rfl

theorem IlExpr.eval_agree {s : PhysState} {l : State Temp} (hreg : s.reg = l.reg) (hmem : s.mem = l.mem) :
    ∀ {e : LExpr Temp}, (∀ q ∈ e.reads, ∀ t, q.2 = .temp t → ∀ i < q.1, s.temp t.index i = l.temp t i) →
      (e.map LReg.index).eval s = e.eval l
  | register n r, h => get_agree r n (fun t ht => h (n, r) List.mem_cons_self t ht)
  | registerSplit n hi lo, h => by
    have h1 := get_agree hi n fun t ht => h (n, hi) List.mem_cons_self t ht
    have h2 := get_agree lo n fun t ht => h (n, lo) (List.mem_cons_of_mem _ List.mem_cons_self) t ht
    simp only [map, subst, eval, h1, h2]
  | const _ _, _ | constPointer _ _, _ => rfl
  | readGp n, _ => by simp only [map, subst, eval, State.get, hreg]
  | unop o n a, h => by
    have ih := eval_agree hreg hmem (e := a) h
    simp only [map] at ih
    simp only [map, subst, eval, ih, show (subst LReg.index id readGp a).size = a.size from size_map _ a]
  | binop o n a b, h => by
    have ha := eval_agree hreg hmem (e := a) fun q hq => h q (List.mem_append_left _ hq)
    have hb := eval_agree hreg hmem (e := b) fun q hq => h q (List.mem_append_right _ hq)
    simp only [map] at ha hb
    simp only [map, subst, eval, ha, hb]
  | compare o n a b, h => by
    have ha := eval_agree hreg hmem (e := a) fun q hq => h q (List.mem_append_left _ hq)
    have hb := eval_agree hreg hmem (e := b) fun q hq => h q (List.mem_append_right _ hq)
    simp only [map] at ha hb
    simp only [map, subst, eval, ha, hb]
  | load n a, h => by
    have ha := eval_agree hreg hmem (e := a) h
    simp only [map] at ha
    simp only [map, subst, eval, ha, State.load, hmem]
where
  get_agree (r : LReg Temp) (n : Nat) (h : ∀ t, r = .temp t → ∀ i < n, s.temp t.index i = l.temp t i) :
      s.get n r.index = l.get n r := by
    cases r with
    | hex q => simp only [LReg.map, State.get, hreg]
    | temp t => exact Bytes.join_congr (h t rfl)

end Refinement
end Hex
