import BinjaHexagon.Opcodes
import BinjaHexagon.TempClash
/-!
# TempVars — a packet whose variables are their own

Where every use finds its own variable, the emitted body does to registers and memory what it would do with a place for
each variable.
-/
namespace Hex

open Flow (Block Along)

/-- A step that sees only bytes that count of the variables it reads, sets all those of the one it sets, if it is one
that shares its index, and sets one at most. -/
structure Step.Fine (e : Step) : Prop where
  reads : ∀ q ∈ e.reads, ∀ t, q.2 = .temp t → t.Valid ∧ ∀ k < q.1, t.Holds k
  sets : ∀ x, e = .inl (.il x) → x.dests.length ≤ 1 ∧
    ∀ d ∈ x.dests, ∀ t, d.2 = .temp t → t.Valid ∧ (t.isPair = true ∨ t.isScratch = true → ∀ k, t.Holds k → k < d.1)

/-- The two machines agree on registers, memory and every variable that is found at its index. -/
structure Agree (pre : List Step) (s : PhysState) (l : State Temp) : Prop where
  valid : Valids (pre.map Step.access)
  reg : s.reg = l.reg
  mem : s.mem = l.mem
  temp : ∀ t : Temp, t.Valid → (∀ u ∈ lastSet (pre.map Step.access) t.index, u = t) →
    ∀ k, t.Holds k → s.temp t.index k = l.temp t k

section Step

variable {pre : List Step} {s : PhysState} {l : State Temp}

theorem Agree.eval (h : Agree pre s l) {e : LExpr Temp}
    (hown : ∀ t ∈ (e.reads.map Prod.snd).filterMap LReg.temp?, ∀ u ∈ lastSet (pre.map Step.access) t.index, u = t)
    (hfine : ∀ q ∈ e.reads, ∀ t, q.2 = .temp t → t.Valid ∧ ∀ k < q.1, t.Holds k) :
    (e.map LReg.index).eval s = e.eval l := by
  refine IlExpr.eval_agree h.reg h.mem fun q hq t ht k hk => ?_
  obtain ⟨hv, hh⟩ := hfine q hq t ht
  refine h.temp t hv (hown t ?_) k (hh k hk)
  exact List.mem_filterMap.2 ⟨q.2, List.mem_map.2 ⟨q, hq, rfl⟩, LReg.temp?_eq.2 ht⟩

theorem Agree.keep (h : Agree pre s l) {e : Step} (hsets : e.access.sets = []) {s' : PhysState} {l' : State Temp}
    (hreg : s'.reg = l'.reg) (hmem : s'.mem = l'.mem) (ht : s'.temp = s.temp) (ht' : l'.temp = l.temp) :
    Agree (pre ++ [e]) s' l' := by
  have hlast : ∀ k, lastSet ((pre ++ [e]).map Step.access) k = lastSet (pre.map Step.access) k := by
    intro k
    have hone : lastSet [e.access] k = none := by
      cases hc : lastSet [e.access] k with
      | none => rfl
      | some u =>
        have := (lastSet_singleton hc).1
        rw [hsets] at this
        exact absurd this List.not_mem_nil
    rw [List.map_append, List.map_singleton, lastSet_append, hone, Option.none_or]
  refine ⟨fun a ha => ?_, hreg, hmem, fun t hv hu k hk => ?_⟩
  · rw [List.map_append] at ha
    rcases List.mem_append.1 ha with ha | ha
    · exact h.valid a ha
    · rw [List.mem_singleton.1 ha, hsets]
      exact fun u hu => absurd hu List.not_mem_nil
  · rw [hlast] at hu
    rw [ht, ht']
    exact h.temp t hv hu k hk

/-- A step that sets the variable `t`. -/
theorem Agree.put (h : Agree pre s l) {e : Step} {t : Temp} (hsets : e.access.sets = [t]) (hv : t.Valid) {n : Nat}
    (hfull : t.isPair = true ∨ t.isScratch = true → ∀ k, t.Holds k → k < n) (v : BitVec 64) :
    Agree (pre ++ [e]) (s.setTemp n t.index v) (l.setTemp n t v) := by
  have hlast : ∀ k, lastSet ((pre ++ [e]).map Step.access) k =
      if t.index = k then some t else lastSet (pre.map Step.access) k := by
    intro k
    have hone : lastSet [e.access] k = if t.index = k then some t else none := by
      simp [lastSet, hsets, List.find?_cons]
      split <;> simp_all
    rw [List.map_append, List.map_singleton, lastSet_append, hone]
    split <;> rfl
  refine ⟨fun a ha => ?_, h.reg, h.mem, fun u hu hown k hk => ?_⟩
  · rw [List.map_append] at ha
    rcases List.mem_append.1 ha with ha | ha
    · exact h.valid a ha
    · rw [List.mem_singleton.1 ha, hsets]
      exact fun u hu => by rw [List.mem_singleton.1 hu]; exact hv
  · rw [hlast] at hown
    by_cases hk' : t.index = u.index
    · rw [if_pos hk'] at hown
      obtain rfl : t = u := hown t rfl
      simp only [State.setTemp, true_and]
      split
      · rfl
      · rename_i hkn
        -- beyond the size that was set, only a variable with an index of its own counts
        have hsolo : t.isPair = false ∧ t.isScratch = false := by
          constructor
          · by_contra hp
            exact hkn (hfull (.inl (by simpa using hp)) k hk)
          · by_contra hp
            exact hkn (hfull (.inr (by simpa using hp)) k hk)
        exact h.temp t hu (own_of_solo h.valid hu hsolo) k hk
    · rw [if_neg hk'] at hown
      rw [State.setTemp_temp_ne _ _ _ (Ne.symm hk'), State.setTemp_temp_ne _ _ _ fun he => hk' (by rw [he])]
      exact h.temp u hu hown k hk

theorem Agree.step (h : Agree pre s l) {a : LiftAct} (hown : Own (pre.map Step.access) (Step.access (.inl a)))
    (hfine : Step.Fine (.inl a)) : Agree (pre ++ [.inl a]) (bodySem.exec a s) (varSem.exec a l) := by
  cases a with
  | branch k d => exact h.keep rfl h.reg h.mem rfl rfl
  | il x =>
    have heval : ∀ e ∈ x.exprs, (e.map LReg.index).eval s = e.eval l := by
      intro e he
      refine h.eval (fun t ht => hown t ?_) fun q hq => hfine.reads q (List.mem_flatMap.2 ⟨e, he, hq⟩)
      obtain ⟨r, hr, ht⟩ := List.mem_filterMap.1 ht
      obtain ⟨q, hq, rfl⟩ := List.mem_map.1 hr
      exact List.mem_filterMap.2 ⟨q.2, List.mem_map.2 ⟨q, List.mem_flatMap.2 ⟨e, he, hq⟩, rfl⟩, ht⟩
    have hsets := hfine.sets x rfl
    cases x with
    | setRegister n r v =>
      have hval := heval v List.mem_cons_self
      simp only [IlExpr.map] at hval
      cases r with
      | hex r =>
        refine h.keep rfl ?_ h.mem rfl rfl
        simp only [bodySem, varSem, IlInsn.map, IlInsn.subst, IlInsn.exec, LReg.map, State.set, State.setReg, hval,
          h.reg]
      | temp t =>
        obtain ⟨hv, hfull⟩ := hsets.2 (n, .temp t) List.mem_cons_self t rfl
        have := h.put (e := .inl (.il (.setRegister n (.temp t) v))) rfl hv hfull (v.eval l)
        simpa only [bodySem, varSem, IlInsn.map, IlInsn.subst, IlInsn.exec, LReg.map, State.set, hval] using this
    | setRegisterSplit n hi lo v => exact absurd hsets.1 (Nat.not_succ_le_self 1)
    | store n a v =>
      have haddr := heval a List.mem_cons_self
      have hval := heval v (List.mem_cons_of_mem _ List.mem_cons_self)
      simp only [IlExpr.map] at haddr hval
      refine h.keep rfl h.reg ?_ rfl rfl
      simp only [bodySem, varSem, IlInsn.map, IlInsn.subst, IlInsn.exec, State.store, haddr, hval, h.mem]
    | systemCall | breakpoint | undefined => exact h.keep rfl h.reg h.mem rfl rfl

theorem Agree.test (h : Agree pre s l) {c : LExpr Temp} (hown : Own (pre.map Step.access) (Step.access (.inr c)))
    (hfine : Step.Fine (.inr c)) :
    bodySem.test c s = varSem.test c l ∧ Agree (pre ++ [.inr c]) s l := by
  refine ⟨?_, h.keep rfl h.reg h.mem rfl rfl⟩
  simp only [bodySem, varSem, IlExpr.test]
  rw [h.eval hown hfine.reads]

end Step

section Lift

variable {pc : BitVec 64} {i : Insn} {n : Nat} {ctx : PacketContext}

/-- Whatever size a name is read at, it counts in the variable it stands for. -/
theorem Insn.holds_resolve {x : RegName} {t : Temp} (h : i.resolve n x = .temp t) : ∀ k < x.size, t.Holds k := by
  intro k hk
  have hsize : x.size ≤ 8 := by
    cases x with
    | oldV t id | newN t id =>
      simp only [RegName.size, regSize]
      split
      · omega
      · split <;> omega
    | hexReg r =>
      simp only [RegName.size]
      split <;> omega
    | _ => simp only [RegName.size]; omega
  cases t with
  | reg ss r =>
    rcases ss with _ | _ | ss
    · trivial
    · exact show k < 8 by omega
    · trivial
  | ea =>
    have := Insn.scratch?_of_resolve h rfl
    cases x with
    | eaReg => exact hk
    | _ => cases this
  | tmp | width | offset | shamt => exact show k < 8 by omega
  | branchrDest m | branchTaken m => trivial

theorem holds_lt_size {x : RegName} {t : Temp} (h : x.scratch? = some t) : ∀ k, t.Holds k → k < x.size := by
  intro k hk
  cases x with
  | eaReg | tmpReg | widthReg | offsetReg | shamtReg => cases h; exact hk
  | _ => cases h

theorem reads_subst {ρ κ : Type} {f : ρ → LReg Temp} {g : κ → BitVec 64} {gp : Nat → LExpr Temp}
    (hgp : ∀ m, ∀ q ∈ (gp m).reads, ∀ t, q.2 ≠ .temp t) : ∀ {e : IlExpr ρ κ} {q : Nat × LReg Temp},
      q ∈ (e.subst f g gp).reads → (∀ t, q.2 ≠ .temp t) ∨ ∃ p ∈ e.reads, q = (p.1, f p.2)
  | .register m r, q, h => .inr ⟨(m, r), List.mem_cons_self, List.mem_singleton.1 h⟩
  | .registerSplit m hi lo, q, h => by
    rcases List.mem_cons.1 h with rfl | h
    · exact .inr ⟨(m, hi), List.mem_cons_self, rfl⟩
    · exact .inr ⟨(m, lo), List.mem_cons_of_mem _ List.mem_cons_self, List.mem_singleton.1 h⟩
  | .const _ _, _, h | .constPointer _ _, _, h => absurd h List.not_mem_nil
  | .readGp m, q, h => .inl (hgp m q h)
  | .unop _ _ e, _, h | .load _ e, _, h => reads_subst hgp (e := e) h
  | .binop _ _ d e, q, h | .compare _ _ d e, q, h => by
    rcases List.mem_append.1 h with h | h
    · exact (reads_subst hgp h).imp id fun ⟨p, hp, he⟩ => ⟨p, List.mem_append_left _ hp, he⟩
    · exact (reads_subst hgp h).imp id fun ⟨p, hp, he⟩ => ⟨p, List.mem_append_right _ hp, he⟩

theorem gp_reads (b : Bool) (m : Nat) : ∀ q ∈ (resolveGp b m).reads, ∀ t, q.2 ≠ .temp t := by
  cases b with
  | true => exact fun q hq => absurd hq List.not_mem_nil
  | false => intro q hq t; rw [List.mem_singleton.1 hq]; exact fun h => by cases h

variable {imms : ImmLetter → BitVec 32}

/-- A read of the behaviour, in the variable it stands for. -/
theorem fine_read (hn : n < 10) {e : GExpr} (he : ∀ p ∈ e.reads, Sized p) {q : Nat × LReg Temp}
    (hq : q ∈ (e.subst (i.resolve n) (resolveConst pc imms) (resolveGp i.extensionValid)).reads) {t : Temp}
    (ht : q.2 = .temp t) : t.Valid ∧ ∀ k < q.1, t.Holds k := by
  rcases reads_subst (gp_reads i.extensionValid) hq with h | ⟨p, hp, rfl⟩
  · exact absurd ht (h t)
  · refine ⟨Insn.resolve_valid hn ht, fun k hk => Insn.holds_resolve ht k ?_⟩
    rwa [show p.1 = p.2.size from he p hp] at hk

theorem exprs_subst {ρ κ : Type} {f : ρ → LReg Temp} {g : κ → BitVec 64} {gp : Nat → LExpr Temp} (x : IlInsn ρ κ) :
    (x.subst f g gp).exprs = x.exprs.map (IlExpr.subst f g gp) := by
  cases x <;> rfl

theorem sets_of_scopedPath {sources : List RegName} : ∀ {p : List (Access RegName)} {set : List RegName},
    scopedPath sources set p = true → ∀ a ∈ p, ∀ x ∈ a.sets, x ∉ sources
  | [], _, _, a, ha => absurd ha List.not_mem_nil
  | b :: p, set, h, a, ha => by
    simp only [scopedPath, Bool.and_eq_true, List.all_eq_true] at h
    rcases List.mem_cons.1 ha with rfl | ha
    · exact fun x hx => by simpa using h.1.2 x hx
    · exact sets_of_scopedPath h.2 a ha

theorem body_sets_no_pair (hs : i.opcode.supported = true) {p : List Step} (hp : p ∈ (lift pc i n ctx).body.paths) :
    ∀ e ∈ p, ∀ t ∈ e.access.sets, t.isPair = false := by
  intro e he t ht
  rw [lift, if_pos hs] at hp
  have hmem := List.mem_map_of_mem (f := List.map Step.access) hp
  rw [i.paths_body] at hmem
  obtain ⟨q, hq, hqp⟩ := List.mem_map.1 hmem
  have hacc : e.access ∈ p.map Step.access := List.mem_map.2 ⟨e, he, rfl⟩
  rw [← hqp] at hacc
  obtain ⟨g, hg, hge⟩ := List.mem_filterMap.1 hacc
  obtain ⟨a, ha, hae⟩ := Option.map_eq_some_iff.1 hge
  rw [← hae] at ht
  obtain ⟨x, hx, hres⟩ := Insn.mem_rename_sets.1 ht
  by_contra hpair
  obtain ⟨r, -, hplace⟩ := Insn.place_of_pair hres (by simpa using hpair)
  exact sets_of_scopedPath (Insn.scoped_paths hs q hq) a (List.mem_filterMap.2 ⟨g, hg, ha⟩) x hx
    (Insn.source_of_pair hplace)

theorem fine_copyToTemp {size r ss : Nat} (hv : (Temp.reg ss r).Valid) (hsize : ss = 0 ∨ size = 8) :
    Step.Fine (.inl (.il (copyToTemp size r ss))) := by
  constructor
  · intro q hq t ht
    unfold copyToTemp at hq
    split at hq
    · simp only [Step.reads, IlInsn.exprs, List.flatMap_cons, IlExpr.reads, List.flatMap_nil, List.append_nil,
        List.mem_cons, List.not_mem_nil, or_false] at hq
      rcases hq with rfl | rfl <;> cases ht
    · simp only [Step.reads, IlInsn.exprs, List.flatMap_cons, IlExpr.reads, List.flatMap_nil, List.append_nil,
        List.mem_cons, List.not_mem_nil, or_false] at hq
      rw [hq] at ht
      cases ht
  · intro x hx
    cases hx
    rw [dests_copyToTemp]
    refine ⟨Nat.le_refl 1, fun d hd t ht => ?_⟩
    rw [List.mem_singleton.1 hd] at ht ⊢
    cases ht
    refine ⟨hv, fun h k hk => ?_⟩
    rcases hsize with rfl | rfl
    · rcases h with h | h <;> cases h
    · rcases h with h | h
      · rcases ss with _ | _ | ss
        · cases h
        · exact hk
        · cases h
      · cases h

theorem fine_decl {c : LInsn Temp} (hc : c ∈ (i.declared ctx).code) : Step.Fine (.inl (.il c)) := by
  have hvalid := (mem_declAccess (i := i) (List.mem_map.2 ⟨c, hc, rfl⟩)).2
  rw [i.declared_eq] at hc
  rcases mem_code_declare hc with hc | ⟨size, r, ss, rfl, hsize⟩
  · exact absurd hc List.not_mem_nil
  · rw [access_copyToTemp] at hvalid
    exact fine_copyToTemp (hvalid _ List.mem_cons_self) hsize

theorem fine_insn (hn : n < 10) {y : IlInsn RegName ConstName} (hy : y.AllSized)
    (hpair : ∀ d ∈ y.dests, ∀ t, i.resolve n d.2 = .temp t → t.isPair = false) :
    Step.Fine (.inl (.il (y.subst (i.resolve n) (resolveConst pc imms) (resolveGp i.extensionValid)))) := by
  constructor
  · intro q hq t ht
    simp only [Step.reads, exprs_subst, List.mem_flatMap, List.mem_map] at hq
    obtain ⟨_, ⟨e, he, rfl⟩, hq⟩ := hq
    exact fine_read hn (hy.1 e he) hq ht
  · intro x hx
    cases hx
    rw [IlInsn.dests_subst, List.length_map]
    refine ⟨hy.2.2, fun d hd t ht => ?_⟩
    obtain ⟨e, he, rfl⟩ := List.mem_map.1 hd
    refine ⟨Insn.resolve_valid hn ht, fun h k hk => ?_⟩
    rcases h with h | h
    · rw [hpair e he t ht] at h
      cases h
    · rw [show e.1 = e.2.size from hy.2.1 e he]
      exact holds_lt_size (Insn.scratch?_of_resolve ht h) k hk

/-- **Every step of a lifted instruction is fine.** -/
theorem fine_lift (hn : n < 10) {p : List Step} (hp : p ∈ (lift pc i n ctx).block.paths) : ∀ e ∈ p, Step.Fine e := by
  intro e he
  by_cases hs : i.opcode.supported = true
  · rw [Lifted.block] at hp
    obtain ⟨q, hq, r, hr, rfl⟩ := Block.mem_paths_append.1 hp
    rcases List.mem_append.1 he with he | he
    · rw [Block.paths_ofList, List.mem_singleton, List.map_map] at hq
      rw [hq] at he
      obtain ⟨c, hc, rfl⟩ := List.mem_map.1 he
      rw [lift, if_pos hs] at hc
      exact fine_decl hc
    · have hstep := Block.mem_path hr e he
      have hpair := body_sets_no_pair hs hr e he
      rw [lift, if_pos hs] at hstep
      have henv := i.env_declared ctx
      cases e with
      | inl a =>
        obtain ⟨it, hit, imms, him⟩ := Block.mem_acts_instantiate _ _ _ _ hstep
        cases it with
        | branch k d =>
          simp only [LiftEnv.item, Option.some.injEq] at him
          subst him
          exact ⟨fun q hq => absurd hq List.not_mem_nil, fun x hx => by cases hx⟩
        | pcalign l => simp [LiftEnv.item] at him
        | insn y =>
          simp only [LiftEnv.item, LiftEnv.insn, henv, Option.some.injEq] at him
          subst him
          refine fine_insn hn (i.semantics_sized.1 y hit) fun d hd t ht => hpair t ?_
          simp only [Step.access, Access.filterMap, Access.ofInsn, IlInsn.dests_subst, List.map_map, List.mem_filterMap,
            List.mem_map]
          exact ⟨_, ⟨d, hd, rfl⟩, LReg.temp?_eq.2 ht⟩
      | inr c =>
        obtain ⟨d, hd, imms, rfl⟩ := Block.mem_tests_instantiate _ _ _ _ hstep
        refine ⟨fun q hq t ht => ?_, fun x hx => by cases hx⟩
        simp only [Step.reads, LiftEnv.expr, henv] at hq
        exact fine_read hn (i.semantics_sized.2 d hd) hq ht
  · rw [lift, if_neg hs] at hp
    rw [List.mem_singleton.1 hp] at he
    rw [List.mem_singleton.1 he]
    refine ⟨fun q hq => absurd hq List.not_mem_nil, fun x hx => ?_⟩
    cases hx
    exact ⟨Nat.zero_le 1, fun d hd => absurd hd List.not_mem_nil⟩

end Lift

section Packet

variable {pc : BitVec 64} {is : List Insn}

theorem fine_packet : ∀ {is : List Insn} {n : Nat} {ctx : PacketContext}, n + is.length ≤ 10 →
    ∀ p ∈ (packetBody (liftInsns pc n is ctx)).paths, ∀ e ∈ p, Step.Fine e
  | [], _, _, _, p, hp, e, he => by
    rw [List.mem_singleton.1 hp] at he
    exact absurd he List.not_mem_nil
  | i :: is, n, ctx, hn, p, hp, e, he => by
    rw [List.length_cons] at hn
    obtain ⟨q, hq, r, hr, rfl⟩ := Block.mem_paths_append.1 hp
    rcases List.mem_append.1 he with he | he
    · exact fine_lift (by omega) hq e he
    · exact fine_packet (by omega) r hr e he

/-- The body does what it would do with a place for every variable: to the registers, to memory, and to each variable
that the write-back or a branch reads. -/
structure OwnPlaces (pc : BitVec 64) (is : List Insn) (s : PhysState) : Prop where
  reg : (bodyState pc is s).reg = ((packetBody (liftInsns pc 0 is .empty)).run varSem s.vars).reg
  mem : (bodyState pc is s).mem = ((packetBody (liftInsns pc 0 is .empty)).run varSem s.vars).mem
  temp : ∀ t : Temp, t.Valid → t.isPair = false → t.isScratch = false → ∀ k,
    (bodyState pc is s).temp t.index k = ((packetBody (liftInsns pc 0 is .empty)).run varSem s.vars).temp t k

theorem ownPlaces (hlen : is.length ≤ 10) (hclash : ∀ i ∈ is, i.pairClash = false) (s : PhysState) :
    OwnPlaces pc is s := by
  have hown : ∀ p ∈ (packetBody (liftInsns pc 0 is .empty)).paths, Along Own [] (p.map Step.access) :=
    (along_packet is 0 .empty (by omega) fun a ha => absurd ha List.not_mem_nil).2 hclash
  have hok : ∀ p ∈ (packetBody (liftInsns pc 0 is .empty)).paths,
      Along (fun pre e => Own (pre.map Step.access) (Step.access e) ∧ Step.Fine e) [] p :=
    fun p hp => Flow.along_and ((Flow.along_map Step.access).1 (hown p hp)) (fine_packet (by omega) p hp)
  have hstart : Agree [] s s.vars :=
    ⟨fun a ha => absurd ha List.not_mem_nil, rfl, rfl, fun _ _ _ _ _ => rfl⟩
  obtain ⟨p, -, h⟩ := Block.run_refines bodySem varSem (R := Agree)
    (fun _ _ _ _ hok h => h.step hok.1 hok.2) (fun _ _ _ _ hok h => h.test hok.1 hok.2)
    (packetBody (liftInsns pc 0 is .empty)) [] s s.vars hok hstart
  exact ⟨h.reg, h.mem, fun t hv hp hs k => h.temp t hv (own_of_solo h.valid hv ⟨hp, hs⟩) k (by
    cases t with
    | reg ss r =>
      rcases ss with _ | _ | ss
      · trivial
      · cases hp
      · trivial
    | branchrDest m | branchTaken m => trivial
    | _ => cases hs)⟩

/-- **No live temporary is overwritten by an unrelated one**, in any packet that fits the array, exactly when no
instruction reads the copy of a pair behind an assignment of the scratch variable that shares its index; and then every
use reads the variable that the behaviour names. -/
theorem temps_own (h : HashOrder) (pc : BitVec 64) (cof : Bool) (is : List Insn) (hlen : is.length ≤ instructionsMax) :
    ((∀ p ∈ packetPaths h pc cof is, Along Own [] p) ↔ ∀ i ∈ is, i.pairClash = false) ∧
      ((∀ p ∈ packetPaths h pc cof is, Along Own [] p) → ∀ s, OwnPlaces pc is s) := by
  have hlen' : is.length ≤ 10 := Nat.le_trans hlen (by decide)
  have hiff := temps_own_iff h pc cof is hlen'
  exact ⟨hiff, fun hown s => ownPlaces hlen' (hiff.1 hown) s⟩

/-- `r31:30=deallocframe(r30)`, `r7:6=add(r1:0,r5:4)` and `memd(r2+#0)=r5:4`: the address of the first and the last has
the index of the low word of the copy of `r1:0`, which only the second reads. -/
def pairPacket : List Insn :=
  [Opcodes.l2Deallocframe.insn [30, 30] [] Opcodes.l2Deallocframe_fits, Opcodes.a2Addp.insn [6, 0, 4] [] (by decide),
    Opcodes.s2StorerdIo.insn [2, 4] [0] (by decide)]

theorem temps_own_pairPacket :
    (∀ p ∈ packetPaths .added 0 false pairPacket, Along Own [] p) ∧ ∀ s, OwnPlaces 0 pairPacket s := by
  obtain ⟨hiff, hplaces⟩ := temps_own .added 0 false pairPacket (by decide)
  have hown := hiff.2 (by decide +kernel)
  exact ⟨hown, hplaces hown⟩

/-- `memd(r2+#0)=r1:0`. -/
def storePair : Insn := Opcodes.s2StorerdIo.insn [2, 0] [0] (by decide)

/-- `r1:0 = 0x0000000200000001`, `r2 = 0x100`. -/
def storePairState : PhysState := ⟨fun a => if a = 0 then 1 else if a = 4 then 2 else if a = 9 then 1 else 0,
    fun _ _ => 0,
  fun _ => 0⟩

/-- In `memd(r2+#0)=r1:0` the address overwrites the low word of the copy of the pair: what is stored is
`0x0000000200000100`. -/
theorem storePair_overwritten : (∃ p ∈ packetPaths .added 0 false [storePair], ¬ Along Own [] p) ∧
    (packetState .added 0 [storePair] storePairState).load 8 0x100 = 0x0000000200000100 ∧
      storePairState.get 8 (.hex 0) = 0x0000000200000001 := by
  refine ⟨?_, by decide +kernel, by decide +kernel⟩
  by_contra hno
  have hall : ∀ p ∈ packetPaths .added 0 false [storePair], Along Own [] p := by
    intro p hp
    by_contra hp'
    exact hno ⟨p, hp, hp'⟩
  exact absurd ((temps_own_iff .added 0 false [storePair] (by decide)).1 hall storePair List.mem_cons_self) (by decide)

end Packet
end Hex
