import BinjaHexagon.PacketTemps
import BinjaHexagon.TempVars
/-!
# BodyRun — a behaviour run with a place for every variable

From the state its declarations leave, a lifted behaviour does at its indices what it would do with a place for every
variable, as long as no copy of a pair is read where a scratch variable has put other bytes at its index.
-/
namespace Hex

open Flow (Block Along)

/-- Wherever the step reads the copy of a pair, it holds what it held in state `u`. -/
def KeepsPairs (u s : PhysState) (e : Step) : Prop :=
  ∀ q ∈ e.reads, ∀ r, q.2 = .temp (.reg 1 r) → ∀ k < q.1, s.temp (Temp.reg 1 r).index k = u.temp (Temp.reg 1 r).index k

/-- The two machines agree on registers, memory and every variable but the copies of pairs; these are as they were in
`u`. -/
structure Mirrors (u s : PhysState) (l : State Temp) : Prop where
  reg : s.reg = l.reg
  mem : s.mem = l.mem
  temp : ∀ t : Temp, t.Valid → t.isPair = false → s.temp t.index = l.temp t
  pair : ∀ r, l.temp (.reg 1 r) = u.temp (Temp.reg 1 r).index

/-- What both machines do alike: a step that sets no copy of a pair and reads each as it was in `u`. -/
structure Alike (u s : PhysState) (e : Step) : Prop where
  fine : e.Fine
  sets : ∀ t ∈ e.access.sets, t.isPair = false
  keeps : KeepsPairs u s e

theorem Temp.eq_reg_of_isPair {t : Temp} (h : t.isPair = true) : ∃ r, t = .reg 1 r := by
  cases t with
  | reg ss r =>
    rcases ss with _ | _ | ss
    · cases h
    · exact ⟨r, rfl⟩
    · cases h
  | _ => cases h

section Step

variable {u s : PhysState} {l : State Temp}

theorem Mirrors.eval (h : Mirrors u s l) {e : LExpr Temp} (hv : ∀ q ∈ e.reads, ∀ t, q.2 = .temp t → t.Valid)
    (hp : ∀ q ∈ e.reads, ∀ r, q.2 = .temp (.reg 1 r) → ∀ k < q.1,
      s.temp (Temp.reg 1 r).index k = u.temp (Temp.reg 1 r).index k) : (e.map LReg.index).eval s = e.eval l := by
  refine IlExpr.eval_agree h.reg h.mem fun q hq t ht k hk => ?_
  by_cases hpair : t.isPair = true
  · obtain ⟨r, rfl⟩ := Temp.eq_reg_of_isPair hpair
    rw [h.pair, hp q hq r ht k hk]
  · rw [h.temp t (hv q hq t ht) (by simpa using hpair)]

theorem Mirrors.put (h : Mirrors u s l) {t : Temp} (hv : t.Valid) (hp : t.isPair = false) (n : Nat) (v : BitVec 64) :
    Mirrors u (s.setTemp n t.index v) (l.setTemp n t v) := by
  refine ⟨h.reg, h.mem, fun w hw hwp => ?_, fun r => ?_⟩
  · by_cases hwt : w = t
    · subst hwt
      funext k
      simp only [State.setTemp, true_and, h.temp w hw hwp]
    · have hi : w.index ≠ t.index := fun hi => by
        rcases Temp.eq_of_index hw hv hi with he | ⟨he, -⟩ | ⟨-, he⟩
        · exact hwt he
        · rw [hwp] at he; cases he
        · rw [hp] at he; cases he
      rw [State.setTemp_temp_ne _ _ _ hi, State.setTemp_temp_ne _ _ _ hwt, h.temp w hw hwp]
  · have hne : Temp.reg 1 r ≠ t := by
      rintro rfl
      cases hp
    rw [State.setTemp_temp_ne _ _ _ hne, h.pair]

theorem Mirrors.step (h : Mirrors u s l) {a : LiftAct} (ha : Alike u s (.inl a)) :
    Mirrors u (bodySem.exec a s) (varSem.exec a l) := by
  obtain ⟨hfine, hsets, hkeep⟩ := ha
  cases a with
  | branch k d => exact h
  | il x =>
    have heval : ∀ e ∈ x.exprs, (e.map LReg.index).eval s = e.eval l := fun e he =>
      h.eval (fun q hq t ht => (hfine.reads q (List.mem_flatMap.2 ⟨e, he, hq⟩) t ht).1)
        fun q hq => hkeep q (List.mem_flatMap.2 ⟨e, he, hq⟩)
    cases x with
    | setRegister n r v =>
      have hval := heval v List.mem_cons_self
      simp only [IlExpr.map] at hval
      cases r with
      | hex r =>
        simp only [bodySem, varSem, IlInsn.map, IlInsn.subst, IlInsn.exec, LReg.map, State.set, hval]
        exact ⟨by simp only [State.setReg, h.reg], h.mem, h.temp, h.pair⟩
      | temp t =>
        have hv := ((hfine.sets _ rfl).2 (n, .temp t) List.mem_cons_self t rfl).1
        have := h.put hv (hsets t List.mem_cons_self) n (v.eval l)
        simpa only [bodySem, varSem, IlInsn.map, IlInsn.subst, IlInsn.exec, LReg.map, State.set, hval] using this
    | setRegisterSplit n hi lo v => exact absurd (hfine.sets _ rfl).1 (Nat.not_succ_le_self 1)
    | store n a v =>
      have haddr := heval a List.mem_cons_self
      have hval := heval v (List.mem_cons_of_mem _ List.mem_cons_self)
      simp only [IlExpr.map] at haddr hval
      simp only [bodySem, varSem, IlInsn.map, IlInsn.subst, IlInsn.exec, haddr, hval]
      exact ⟨h.reg, by simp only [State.store, h.mem], h.temp, h.pair⟩
    | systemCall | breakpoint | undefined => exact h

theorem Mirrors.test (h : Mirrors u s l) {c : LExpr Temp} (hc : Alike u s (.inr c)) :
    bodySem.test c s = varSem.test c l := by
  simp only [bodySem, varSem, IlExpr.test]
  rw [h.eval (fun q hq t ht => (hc.fine.reads q hq t ht).1) hc.keeps]

end Step

theorem Insn.operand_of_pair {i : Insn} {x : RegName} {p : Nat} (h : (x, .pair p) ∈ i.places) :
    ∃ k d, i.opcode.regs[k]? = some d ∧ x = d.name ∧ d.kind = some .sourcePair ∧ p = mapRegNum d.regtype (i.reg k) := by
  rcases List.mem_append.1 h with h | h
  · obtain ⟨k, d, hk, hp, hx⟩ := i.mem_operandPlaces h
    unfold Insn.place at hp
    split at hp <;> cases hp
    exact ⟨k, d, hk, hx, by assumption, by rw [Nat.zero_add]⟩
  · obtain ⟨k, -, he⟩ := List.mem_map.1 h
    cases he

section Body

variable {pc : BitVec 64} {i : Insn} {n : Nat} {ctx : PacketContext}

theorem fine_body (hn : n < 10) {u : PhysState} {x : PhysState × Step} (hx : x ∈ (lift pc i n ctx).body.log bodySem u) :
    Step.Fine x.2 ∧ ∀ t ∈ x.2.access.sets, t.isPair = false := by
  have hpath := Block.log_mem_paths bodySem (lift pc i n ctx).body u
  have hmem : x.2 ∈ ((lift pc i n ctx).body.log bodySem u).map Prod.snd := List.mem_map_of_mem hx
  constructor
  · have hblock : (lift pc i n ctx).decls.map (Sum.inl ∘ LiftAct.il) ++
      ((lift pc i n ctx).body.log bodySem u).map Prod.snd ∈
        (lift pc i n ctx).block.paths := by
      rw [Lifted.block]
      refine Block.mem_paths_append.2 ⟨_, ?_, _, hpath, rfl⟩
      rw [Block.paths_ofList, List.map_map]
      exact List.mem_singleton_self _
    exact fine_lift hn hblock x.2 (List.mem_append_right _ hmem)
  · by_cases hs : i.opcode.supported = true
    · exact body_sets_no_pair hs hpath x.2 hmem
    · rw [lift, if_neg hs] at hx
      rw [List.mem_singleton.1 hx]
      exact fun t ht => absurd ht List.not_mem_nil

/-- A place for every variable, with the copies of pairs as state `v` has them. -/
def State.withPairs (u v : PhysState) : State Temp :=
  ⟨u.reg, fun t => if t.isPair then v.temp t.index else u.temp t.index, u.mem⟩

theorem State.withPairs_self (u : PhysState) : u.withPairs u = u.vars := by
  simp only [withPairs, vars, ite_self]

/-- **A behaviour does what it would do with a place for every variable**, as long as it reads the pairs as `v` has
them. -/
theorem body_mirrors (hn : n < 10) (u v : PhysState)
    (hkeep : ∀ x ∈ (lift pc i n ctx).body.log bodySem u, KeepsPairs v x.1 x.2) :
    Mirrors v ((lift pc i n ctx).body.run bodySem u) ((lift pc i n ctx).body.run varSem (u.withPairs v)) ∧
      List.Forall₂ (fun x y => x.2 = y.2 ∧ Mirrors v x.1 y.1) ((lift pc i n ctx).body.log bodySem u)
        ((lift pc i n ctx).body.log varSem (u.withPairs v)) := by
  have hstart : Mirrors v u (u.withPairs v) :=
    ⟨rfl, rfl, fun t _ ht => by simp only [State.withPairs, ht, Bool.false_eq_true, if_false], fun _ => rfl⟩
  have hok : ∀ x ∈ (lift pc i n ctx).body.log bodySem u, Alike v x.1 x.2 := fun x hx =>
    ⟨(fine_body hn hx).1, (fine_body hn hx).2, hkeep x hx⟩
  exact Block.run_lockstep bodySem varSem (fun _ _ _ ha h => h.step ha) (fun _ _ _ hc h => h.test hc) _ u _ hok hstart

end Body
end Hex
