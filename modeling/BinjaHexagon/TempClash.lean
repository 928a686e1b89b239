import BinjaHexagon.DestRegs
import BinjaHexagon.LiftSizes
import BinjaHexagon.TempIndex
/-!
# TempClash — where a scratch variable overwrites the copy of a pair

The copy of the pair `R1:0` has the index of `EA`, that of `R2:1` the index of `tmp`, and so on.  An instruction that
reads such a copy behind an assignment of the scratch variable reads the wrong value; no other use does.
-/
namespace Hex

open Flow (Block Along)

/-- The scratch variable a name stands for. -/
def RegName.scratch? : RegName → Option Temp
  | .eaReg => some .ea
  | .tmpReg => some .tmp
  | .widthReg => some .width
  | .offsetReg => some .offset
  | .shamtReg => some .shamt
  | _ => none

namespace Insn

variable (i : Insn)

/-- The name is the copy of a pair, and one of `set` is the scratch variable with its index. -/
def overwritten (set : List RegName) (x : RegName) : Bool :=
  i.places.any fun q => q.1 == x && match q.2 with
    | .pair r => set.any fun y => y.scratch?.any fun v => v.index == (Temp.reg 1 r).index
    | _ => false

/-- A step of the path reads such a name; `set` are the names assigned before. -/
def clashPath : List RegName → List (Access RegName) → Bool
  | _, [] => false
  | set, a :: p => a.uses.any (i.overwritten set) || clashPath (a.sets ++ set) p

/-- The instruction reads the copy of a pair behind an assignment of the scratch variable with the same index. -/
def pairClash : Bool :=
  i.opcode.supported && i.semantics.paths.any fun p => i.clashPath [] (p.filterMap GenItem.access)

/-- The variables of an access. -/
def rename (n : Nat) : Access RegName → Access Temp :=
  Access.filterMap fun x => (resolveReg (i.places.map fun p => (p.1, p.2.loc)).reverse n x).temp?

end Insn

section Names

variable {i : Insn} {n : Nat} {x : RegName} {t : Temp}

theorem RegName.isScratch_iff : x.isScratch = true ↔ ∃ v, x.scratch? = some v := by
  cases x with
  | eaReg | tmpReg | widthReg | offsetReg | shamtReg => exact ⟨fun _ => ⟨_, rfl⟩, fun _ => rfl⟩
  | _ =>
    constructor
    · intro h; cases h
    · rintro ⟨v, h⟩; cases h

theorem RegName.scratch?_spec (h : x.scratch? = some t) : t.isScratch = true ∧ t.isPair = false ∧ t.Valid := by
  cases x with
  | eaReg | tmpReg | widthReg | offsetReg | shamtReg => cases h; exact ⟨rfl, rfl, trivial⟩
  | _ => cases h

/-- What a name of the behaviour stands for. -/
abbrev Insn.resolve (i : Insn) (n : Nat) (x : RegName) : LReg Temp :=
  resolveReg (i.places.map fun p => (p.1, p.2.loc)).reverse n x

theorem Insn.mem_rename_uses {a : Access RegName} :
    t ∈ (i.rename n a).uses ↔ ∃ x ∈ a.uses, i.resolve n x = .temp t := by
  simp only [rename, Access.filterMap, List.mem_filterMap, LReg.temp?_eq]

theorem Insn.mem_rename_sets {a : Access RegName} :
    t ∈ (i.rename n a).sets ↔ ∃ x ∈ a.sets, i.resolve n x = .temp t := by
  simp only [rename, Access.filterMap, List.mem_filterMap, LReg.temp?_eq]

theorem Insn.resolve_scratch (h : x.scratch? = some t) : i.resolve n x = .temp t := by
  cases x with
  | eaReg | tmpReg | widthReg | offsetReg | shamtReg => cases h; rfl
  | _ => cases h

theorem Insn.operand_lookup {l : LReg Temp}
    (h : ((i.places.map fun p => (p.1, p.2.loc)).reverse.lookup x).getD (.hex 0) = l) : l.Operand := by
  cases hl : (i.places.map fun p => (p.1, p.2.loc)).reverse.lookup x with
  | none => rw [hl] at h; cases h; trivial
  | some q =>
    rw [hl] at h
    cases h
    obtain ⟨l₁, l₂, he, -⟩ := List.lookup_eq_some_iff.1 hl
    refine (i.declared_ok .empty).env (x, q) ?_
    rw [env_declared, he]
    exact List.mem_append_right _ List.mem_cons_self

/-- A name stands for a scratch variable, a branch variable of the instruction or an operand. -/
theorem Insn.resolve_cases (h : i.resolve n x = .temp t) :
    x.scratch? = some t ∨ t = .branchrDest n ∨ t = .branchTaken n ∨ (LReg.temp t).Operand := by
  cases x with
  | eaReg | tmpReg | widthReg | offsetReg | shamtReg => cases h; exact .inl rfl
  | branchrDest => cases h; exact .inr (.inl rfl)
  | branchTaken => cases h; exact .inr (.inr (.inl rfl))
  | hexReg r => cases h
  | oldV _ _ | newN _ _ | pd _ => exact .inr (.inr (.inr (operand_lookup h)))

theorem Insn.resolve_valid (hn : n < 10) (h : i.resolve n x = .temp t) : t.Valid := by
  rcases resolve_cases h with h | rfl | rfl | h
  · exact (RegName.scratch?_spec h).2.2
  · exact hn
  · exact hn
  · cases t with
    | reg ss r => exact h
    | _ => exact h.elim

theorem Insn.scratch?_of_resolve (h : i.resolve n x = .temp t) (ht : t.isScratch = true) : x.scratch? = some t := by
  rcases resolve_cases h with h | rfl | rfl | h
  · exact h
  · cases ht
  · cases ht
  · cases t with
    | reg ss r => cases ht
    | _ => exact h.elim

theorem Insn.place_of_pair (h : i.resolve n x = .temp t) (ht : t.isPair = true) :
    ∃ r, t = .reg 1 r ∧ (x, .pair r) ∈ i.places := by
  obtain ⟨r, rfl⟩ : ∃ r, t = .reg 1 r := by
    cases t with
    | reg ss r =>
      rcases ss with _ | _ | ss
      · cases ht
      · exact ⟨r, rfl⟩
      · cases ht
    | _ => cases ht
  rw [resolve, ← i.env_declared .empty] at h
  obtain ⟨p, hp, hloc⟩ := place_of_resolve h
  cases p with
  | plain q => cases hloc
  | pair q => cases hloc; exact ⟨r, rfl, hp⟩
  | dest rw size q => cases hloc

theorem Insn.source_of_pair {r : Nat} (h : (x, .pair r) ∈ i.places) : x ∈ i.opcode.sources := by
  rcases List.mem_append.1 h with h | h
  · obtain ⟨k, d, hd, hp, rfl⟩ := i.mem_operandPlaces h
    have hkind : d.kind = some .sourcePair := by
      unfold place at hp
      split at hp <;> cases hp
      assumption
    refine List.mem_map.2 ⟨d, List.mem_filter.2 ⟨List.mem_of_getElem? hd, ?_⟩, rfl⟩
    rw [hkind]
    rfl
  · obtain ⟨m, -, he⟩ := List.mem_map.1 h
    cases he

end Names

section Path

variable {i : Insn} {n : Nat} {set : List RegName} {pre : List (Access Temp)}

/-- Behind the assignments of `set`: the index of a pair holds the pair, or a scratch variable of `set`; a scratch
variable of `set` is where it was put. -/
structure Scoped (i : Insn) (set : List RegName) (pre : List (Access Temp)) : Prop where
  valid : Valids pre
  pair : ∀ x r, (x, .pair r) ∈ i.places → ∃ u ∈ lastSet pre (Temp.reg 1 r).index,
    (i.overwritten set x = true → u ≠ .reg 1 r) ∧ (i.overwritten set x = false → u = .reg 1 r)
  scratch : ∀ y ∈ set, ∀ v, y.scratch? = some v → lastSet pre v.index = some v

theorem lastSet_singleton {a : Access Temp} {k : Nat} {u : Temp} (h : lastSet [a] k = some u) :
    u ∈ a.sets ∧ u.index = k := by
  obtain ⟨hk, b, hb, hu⟩ := mem_of_lastSet h
  rw [List.mem_singleton.1 hb] at hu
  exact ⟨hu, hk⟩

theorem lastSet_singleton_none {a : Access Temp} {k : Nat} (h : lastSet [a] k = none) : ∀ u ∈ a.sets, u.index ≠ k := by
  intro u hu hk
  obtain ⟨w, hw⟩ := lastSet_of_mem (List.mem_singleton_self a) hu
  rw [hk, h] at hw
  cases hw

theorem Insn.overwritten_iff (hs : i.opcode.supported = true) {x : RegName} {r : Nat} (hp : (x, .pair r) ∈ i.places) :
    i.overwritten set x = true ↔ ∃ y ∈ set, ∃ v, y.scratch? = some v ∧ v.index = (Temp.reg 1 r).index := by
  have hset : (set.any fun y => y.scratch?.any fun v => v.index == (Temp.reg 1 r).index) = true ↔
      ∃ y ∈ set, ∃ v, y.scratch? = some v ∧ v.index = (Temp.reg 1 r).index := by
    simp only [List.any_eq_true, Option.any_eq_true, beq_iff_eq]
  rw [← hset]
  constructor
  · intro h
    obtain ⟨⟨y, p⟩, hq, h⟩ := List.any_eq_true.1 h
    obtain rfl : y = x := beq_iff_eq.1 (Bool.and_eq_true_iff.1 h).1
    have heq : (y, p) = (y, .pair r) := List.inj_on_of_nodup_map (nodup_places hs) hq hp rfl
    cases heq
    exact (Bool.and_eq_true_iff.1 h).2
  · exact fun h => List.any_eq_true.2 ⟨_, hp, Bool.and_eq_true_iff.2 ⟨beq_self_eq_true x, h⟩⟩

theorem Insn.resolve_pair (hs : i.opcode.supported = true) {x : RegName} {r : Nat} (hp : (x, .pair r) ∈ i.places) :
    i.resolve n x = .temp (.reg 1 r) := by
  rw [resolve, ← i.env_declared .empty]
  exact resolve_place hs hp .empty n

theorem Scoped.own_iff (hs : i.opcode.supported = true) (h : Scoped i set pre) (hn : n < 10) {a : Access RegName}
    (huses : ∀ x ∈ a.uses, x.isScratch = true → x ∈ set) :
    Own pre (i.rename n a) ↔ a.uses.any (i.overwritten set) = false := by
  constructor
  · intro hown
    rw [List.any_eq_false]
    intro x hx hover
    obtain ⟨⟨y, p⟩, hp, hq⟩ := List.any_eq_true.1 hover
    obtain ⟨hyx, hset⟩ := Bool.and_eq_true_iff.1 hq
    obtain rfl : y = x := beq_iff_eq.1 hyx
    cases p with
    | plain r | dest rw size r => cases hset
    | pair r =>
      obtain ⟨u, hu, hne, -⟩ := h.pair y r hp
      exact hne hover (hown _ (Insn.mem_rename_uses.2 ⟨y, hx, Insn.resolve_pair hs hp⟩) u hu)
  · intro hno t ht u hu
    obtain ⟨x, hx, hres⟩ := Insn.mem_rename_uses.1 ht
    have hover : i.overwritten set x = false := by simpa using List.any_eq_false.1 hno x hx
    by_cases hpair : t.isPair = true
    · obtain ⟨r, rfl, hp⟩ := Insn.place_of_pair hres hpair
      obtain ⟨w, hw, -, hsame⟩ := h.pair x r hp
      rw [Option.mem_def.1 hu] at hw
      cases hw
      exact hsame hover
    · by_cases hscr : t.isScratch = true
      · have hx' := Insn.scratch?_of_resolve hres hscr
        rw [h.scratch x (huses x hx (RegName.isScratch_iff.2 ⟨t, hx'⟩)) t hx'] at hu
        exact (Option.some.inj hu).symm
      · exact own_of_solo h.valid (Insn.resolve_valid hn hres) ⟨by simpa using hpair, by simpa using hscr⟩ u hu

theorem Scoped.step (hs : i.opcode.supported = true) (h : Scoped i set pre) (hn : n < 10) {a : Access RegName}
    (hsets : ∀ x ∈ a.sets, x ∉ i.opcode.sources) : Scoped i (a.sets ++ set) (pre ++ [i.rename n a]) := by
  have hpair : ∀ u ∈ (i.rename n a).sets, u.isPair = false := by
    intro u hu
    obtain ⟨x, hx, hres⟩ := Insn.mem_rename_sets.1 hu
    by_contra hp
    obtain ⟨r, -, hp⟩ := Insn.place_of_pair hres (by simpa using hp)
    exact hsets x hx (Insn.source_of_pair hp)
  have hvalid : ∀ u ∈ (i.rename n a).sets, u.Valid := by
    intro u hu
    obtain ⟨x, -, hres⟩ := Insn.mem_rename_sets.1 hu
    exact Insn.resolve_valid hn hres
  have hput : ∀ y ∈ a.sets, ∀ v, y.scratch? = some v → v ∈ (i.rename n a).sets :=
    fun y hy v hv => Insn.mem_rename_sets.2 ⟨y, hy, Insn.resolve_scratch hv⟩
  refine ⟨fun b hb => ?_, fun x r hp => ?_, fun y hy v hv => ?_⟩
  · rcases List.mem_append.1 hb with hb | hb
    · exact h.valid b hb
    · rw [List.mem_singleton.1 hb]
      exact hvalid
  · rw [lastSet_append]
    cases hlast : lastSet [i.rename n a] (Temp.reg 1 r).index with
    | none =>
      have hsame : i.overwritten (a.sets ++ set) x = i.overwritten set x := by
        rw [Bool.eq_iff_iff, Insn.overwritten_iff hs hp, Insn.overwritten_iff hs hp]
        constructor
        · rintro ⟨y, hy, v, hv, hk⟩
          rcases List.mem_append.1 hy with hy | hy
          · exact absurd hk (lastSet_singleton_none hlast v (hput y hy v hv))
          · exact ⟨y, hy, v, hv, hk⟩
        · rintro ⟨y, hy, hv⟩
          exact ⟨y, List.mem_append_right _ hy, hv⟩
      rw [hsame, Option.none_or]
      exact h.pair x r hp
    | some w =>
      obtain ⟨hw, hk⟩ := lastSet_singleton hlast
      have hne : w ≠ .reg 1 r := fun he => by
        have := hpair w hw
        rw [he] at this
        cases this
      have hr : (Temp.reg 1 r).Valid := Insn.resolve_valid hn (Insn.resolve_pair hs hp)
      refine ⟨w, rfl, fun _ => hne, fun hno => ?_⟩
      rcases Temp.eq_of_index (hvalid w hw) hr hk with he | ⟨-, he⟩ | ⟨hscr, -⟩
      · exact he
      · cases he
      · obtain ⟨y, hy, hres⟩ := Insn.mem_rename_sets.1 hw
        have : i.overwritten (a.sets ++ set) x = true := (Insn.overwritten_iff hs hp).2
          ⟨y, List.mem_append_left _ hy, w, Insn.scratch?_of_resolve hres hscr, hk⟩
        rw [hno] at this
        cases this
  · rw [lastSet_append]
    cases hlast : lastSet [i.rename n a] v.index with
    | none =>
      rcases List.mem_append.1 hy with hy | hy
      · exact absurd rfl (lastSet_singleton_none hlast v (hput y hy v hv))
      · exact h.scratch y hy v hv
    | some w =>
      obtain ⟨hw, hk⟩ := lastSet_singleton hlast
      obtain ⟨-, hnp, hval⟩ := RegName.scratch?_spec hv
      rcases Temp.eq_of_index (hvalid w hw) hval hk with rfl | ⟨he, -⟩ | ⟨-, he⟩
      · rfl
      · rw [hpair w hw] at he; cases he
      · rw [hnp] at he; cases he

theorem along_path (hs : i.opcode.supported = true) (hn : n < 10) : ∀ {p : List (Access RegName)}
    {set : List RegName} {pre : List (Access Temp)}, Scoped i set pre → scopedPath i.opcode.sources set p = true →
      (Along Own pre (p.map (i.rename n)) ↔ i.clashPath set p = false)
  | [], _, _, _, _ => ⟨fun _ => rfl, fun _ => trivial⟩
  | a :: p, set, pre, h, hp => by
    simp only [scopedPath, Bool.and_eq_true, List.all_eq_true] at hp
    obtain ⟨⟨huses, hsets⟩, hp⟩ := hp
    have huse : ∀ x ∈ a.uses, x.isScratch = true → x ∈ set := fun x hx hscr => by
      have := huses x hx
      rw [hscr] at this
      simpa using this
    have hset : ∀ x ∈ a.sets, x ∉ i.opcode.sources := fun x hx => by simpa using hsets x hx
    rw [List.map_cons, Along, h.own_iff hs hn huse, along_path hs hn (h.step hs hn hset) hp, Insn.clashPath,
      Bool.or_eq_false_iff]

end Path

section Insns

variable {pc : BitVec 64} {i : Insn} {n : Nat} {ctx : PacketContext} {pre : List (Access Temp)}

/-- The temporaries an expression reads are those of its names. -/
theorem temps_subst {ρ κ : Type} {f : ρ → LReg Temp} {g : κ → BitVec 64} {gp : Nat → LExpr Temp}
    (hgp : ∀ s, ((gp s).reads.map Prod.snd).filterMap LReg.temp? = []) : ∀ e : IlExpr ρ κ,
      ((e.subst f g gp).reads.map Prod.snd).filterMap LReg.temp? = (e.reads.map Prod.snd).filterMap fun x => (f x).temp?
  | .register _ _ | .registerSplit _ _ _ | .const _ _ | .constPointer _ _ => by
    simp [IlExpr.subst, IlExpr.reads, List.filterMap_cons]
  | .readGp s => hgp s
  | .unop _ _ e | .load _ e => temps_subst hgp e
  | .binop _ _ d e | .compare _ _ d e => by
    simp only [IlExpr.subst, IlExpr.reads, List.map_append, List.filterMap_append, temps_subst hgp d, temps_subst hgp e]

theorem temps_gp (b : Bool) (s : Nat) : ((resolveGp b s).reads.map Prod.snd).filterMap LReg.temp? = [] := by
  cases b <;> rfl

theorem Access.ofInsn_subst {ρ κ : Type} {f : ρ → LReg Temp} {g : κ → BitVec 64} {gp : Nat → LExpr Temp}
    (hgp : ∀ s, ((gp s).reads.map Prod.snd).filterMap LReg.temp? = []) (x : IlInsn ρ κ) :
    (Access.ofInsn (x.subst f g gp)).filterMap LReg.temp? = (Access.ofInsn x).filterMap fun y => (f y).temp? := by
  have huses (l : List (IlExpr ρ κ)) : (((l.map (IlExpr.subst f g gp)).flatMap IlExpr.reads).map Prod.snd).filterMap
      LReg.temp? = ((l.flatMap IlExpr.reads).map Prod.snd).filterMap fun y => (f y).temp? := by
    induction l with
    | nil => rfl
    | cons e l ih =>
      simp only [List.map_cons, List.flatMap_cons, List.map_append, List.filterMap_append, temps_subst hgp e, ih]
  have hexprs : (x.subst f g gp).exprs = x.exprs.map (IlExpr.subst f g gp) := by cases x <;> rfl
  simp only [Access.filterMap, Access.ofInsn, hexprs, huses, IlInsn.dests_subst, List.map_map, Access.mk.injEq,
    true_and]
  rw [List.filterMap_map, List.filterMap_map]
  rfl

/-- A step of the behaviour accesses the variables of its names. -/
theorem Insn.paths_body (i : Insn) (pc : BitVec 64) (n : Nat) (ctx : PacketContext) :
    (i.semantics.instantiate (LiftEnv.item ⟨(i.declared ctx).env, n, pc, i.extensionValid⟩)
        (LiftEnv.expr ⟨(i.declared ctx).env, n, pc, i.extensionValid⟩) i.immEnv).2.paths.map (List.map Step.access) =
      i.semantics.paths.map (List.filterMap fun e => (GenItem.access e).map (i.rename n)) := by
  rw [i.env_declared]
  refine Block.paths_instantiate _ _ _ _ (fun imms it => ?_) (fun imms c => ?_) _ _
  · cases it with
    | insn x => exact congrArg some (Access.ofInsn_subst (temps_gp i.extensionValid) x)
    | branch k e => rfl
    | pcalign l => rfl
  · have := temps_subst (f := i.resolve n) (g := resolveConst pc imms) (temps_gp i.extensionValid) c
    exact congrArg (fun l => some (Access.mk l [])) this.symm

/-- What the declarations of an instruction access. -/
def declAccess (i : Insn) (ctx : PacketContext) : List (Access Temp) :=
  (i.declared ctx).code.map fun c => Step.access (.inl (.il c))

theorem Insn.paths_lift (hs : i.opcode.supported = true) :
    (lift pc i n ctx).block.paths.map (List.map Step.access) =
      i.semantics.paths.map fun p => declAccess i ctx ++ (p.filterMap GenItem.access).map (i.rename n) := by
  have hbody := i.paths_body pc n ctx
  have happ (l : List LiftAct) (k : LiftBlock) : (Block.ofList l ++ k).paths = k.paths.map (l.map .inl ++ ·) := by
    induction l with
    | nil => exact (List.map_id' _).symm
    | cons a l ih =>
      rw [Block.ofList, Block.act_append, Block.paths, ih, List.map_map]
      rfl
  rw [lift, if_pos hs, Lifted.block, happ, List.map_map]
  have hsplit : (List.map Step.access ∘ fun p : List Step => ((i.declared ctx).code.map LiftAct.il).map .inl ++ p) =
      (declAccess i ctx ++ ·) ∘ List.map Step.access := by
    funext p
    simp [declAccess]
  rw [hsplit, ← List.map_map, hbody, List.map_map]
  refine List.map_congr_left fun p _ => ?_
  simp only [Function.comp_apply, List.map_filterMap]

theorem access_copyToTemp (size r ss : Nat) : Step.access (.inl (.il (copyToTemp size r ss))) = ⟨[], [.reg ss r]⟩ := by
  unfold copyToTemp
  split <;> rfl

/-- The declarations are copies to temporaries, of eight bytes for a source pair. -/
theorem mem_code_declare : ∀ {ps : List (RegName × Place)} {st : LiftState} {c : LInsn Temp},
    c ∈ (ps.foldl (fun st p => p.2.declare p.1 st) st).code →
      c ∈ st.code ∨ ∃ size r ss, c = copyToTemp size r ss ∧ (ss = 0 ∨ size = 8)
  | [], _, _, h => .inl h
  | (name, p) :: ps, st, c, h => by
    rw [List.foldl_cons] at h
    refine (mem_code_declare h).elim (fun h => ?_) .inr
    cases p with
    | plain r => exact .inl h
    | pair r => exact (List.mem_append.1 h).imp id fun h => ⟨_, _, _, List.mem_singleton.1 h, .inr rfl⟩
    | dest rw size r => exact (List.mem_append.1 h).imp id fun h => ⟨_, _, _, mem_addDestReg_code h, .inl rfl⟩

theorem code_declare_mono : ∀ {ps : List (RegName × Place)} {st : LiftState} {c : LInsn Temp}, c ∈ st.code →
    c ∈ (ps.foldl (fun st p => p.2.declare p.1 st) st).code
  | [], _, _, h => h
  | (name, p) :: ps, st, c, h => by
    rw [List.foldl_cons]
    refine code_declare_mono ?_
    cases p with
    | plain r => exact h
    | pair r | dest rw size r => exact List.mem_append_left _ h

theorem code_declare_pair : ∀ {ps : List (RegName × Place)} {st : LiftState} {x : RegName} {r : Nat},
    (x, .pair r) ∈ ps → copyToTemp 8 r 1 ∈ (ps.foldl (fun st p => p.2.declare p.1 st) st).code
  | q :: ps, st, x, r, h => by
    rw [List.foldl_cons]
    rcases List.mem_cons.1 h with rfl | h
    · exact code_declare_mono (List.mem_append_right _ List.mem_cons_self)
    · exact code_declare_pair h

theorem mem_declAccess {a : Access Temp} (h : a ∈ declAccess i ctx) : a.uses = [] ∧ ∀ u ∈ a.sets, u.Valid := by
  obtain ⟨c, hc, rfl⟩ := List.mem_map.1 h
  have hok := (i.declared_ok ctx).code c hc
  rw [i.declared_eq] at hc
  rcases mem_code_declare hc with hc | ⟨size, r, ss, rfl, -⟩
  · exact absurd hc List.not_mem_nil
  · rw [access_copyToTemp]
    refine ⟨rfl, fun u hu => ?_⟩
    rw [List.mem_singleton.1 hu]
    exact hok (size, .temp (.reg ss r)) (by rw [dests_copyToTemp]; exact List.mem_cons_self)

theorem valids_decl (hpre : Valids pre) : Valids (pre ++ declAccess i ctx) := by
  intro a ha
  rcases List.mem_append.1 ha with ha | ha
  · exact hpre a ha
  · exact (mem_declAccess ha).2

/-- The declarations put the copy of every pair in its place. -/
theorem scoped_decl (hs : i.opcode.supported = true) (hpre : Valids pre) : Scoped i [] (pre ++ declAccess i ctx) := by
  refine ⟨valids_decl hpre, fun x r hp => ?_, fun y hy => absurd hy List.not_mem_nil⟩
  have hr : (Temp.reg 1 r).Valid := Insn.resolve_valid (n := 0) (by decide) (Insn.resolve_pair hs hp)
  have hmem : (⟨[], [.reg 1 r]⟩ : Access Temp) ∈ declAccess i ctx := by
    refine List.mem_map.2 ⟨copyToTemp 8 r 1, ?_, access_copyToTemp 8 r 1⟩
    rw [i.declared_eq]
    exact code_declare_pair hp
  obtain ⟨w, hw⟩ := lastSet_of_mem hmem List.mem_cons_self
  obtain ⟨hk, a, ha, hwa⟩ := mem_of_lastSet hw
  have hno : i.overwritten [] x = false := by
    rw [← Bool.not_eq_true, Insn.overwritten_iff hs hp]
    rintro ⟨y, hy, -⟩
    exact absurd hy List.not_mem_nil
  refine ⟨w, by rw [lastSet_append, hw]; rfl, fun h => absurd (h.symm.trans hno) (by decide), fun _ => ?_⟩
  -- the declarations set no scratch variable
  have hreg : w.isScratch = false := by
    obtain ⟨c, hc, rfl⟩ := List.mem_map.1 ha
    rw [i.declared_eq] at hc
    rcases mem_code_declare hc with hc | ⟨size, q, ss, rfl, -⟩
    · exact absurd hc List.not_mem_nil
    · rw [access_copyToTemp] at hwa
      rw [List.mem_singleton.1 hwa]
      rfl
  rcases Temp.eq_of_index ((mem_declAccess ha).2 w hwa) hr hk with h | ⟨-, h⟩ | ⟨h, -⟩
  · exact h
  · cases h
  · rw [hreg] at h; cases h

theorem along_noUses : ∀ {l : List (Access Temp)} {pre : List (Access Temp)}, (∀ a ∈ l, a.uses = []) → Along Own pre l
  | [], _, _ => trivial
  | a :: l, _, h => by
    refine ⟨fun t ht => ?_, along_noUses fun b hb => h b (List.mem_cons_of_mem _ hb)⟩
    rw [h a List.mem_cons_self] at ht
    exact absurd ht List.not_mem_nil

theorem paths_unsupported (hs : ¬ i.opcode.supported = true) :
    (lift pc i n ctx).block.paths.map (List.map Step.access) = [[⟨[], []⟩]] := by
  rw [lift, if_neg hs]
  rfl

theorem valids_lift (hn : n < 10) {p : List Step} (hp : p ∈ (lift pc i n ctx).block.paths) :
    Valids (p.map Step.access) := by
  have hmem : p.map Step.access ∈ (lift pc i n ctx).block.paths.map (List.map Step.access) :=
    List.mem_map.2 ⟨p, hp, rfl⟩
  by_cases hs : i.opcode.supported = true
  · rw [Insn.paths_lift hs] at hmem
    obtain ⟨q, -, hq⟩ := List.mem_map.1 hmem
    rw [← hq]
    intro a ha
    rcases List.mem_append.1 ha with ha | ha
    · exact (mem_declAccess ha).2
    · obtain ⟨b, -, rfl⟩ := List.mem_map.1 ha
      intro u hu
      obtain ⟨x, -, hres⟩ := Insn.mem_rename_sets.1 hu
      exact Insn.resolve_valid hn hres
  · rw [paths_unsupported hs] at hmem
    rw [List.mem_singleton.1 hmem]
    intro a ha u hu
    rw [List.mem_singleton.1 ha] at hu
    exact absurd hu List.not_mem_nil

theorem Insn.scoped_paths (hs : i.opcode.supported = true) :
    ∀ p ∈ i.semantics.paths, scopedPath i.opcode.sources [] (p.filterMap GenItem.access) = true := by
  intro p hp
  rcases i.semantics_mem with h | ⟨bs, hbs, hb⟩
  · rw [h] at hp
    rw [List.mem_singleton.1 hp]
    rfl
  · exact (wellScoped hs).2 _ (by rw [hbs]; exact hb) p hp

/-- **One instruction**: its uses are its own unless it reads an overwritten pair. -/
theorem along_lift (pc : BitVec 64) (i : Insn) (ctx : PacketContext) (hn : n < 10) (hpre : Valids pre) :
    (∀ p ∈ (lift pc i n ctx).block.paths, Along Own pre (p.map Step.access)) ↔ i.pairClash = false := by
  have hmap : (∀ p ∈ (lift pc i n ctx).block.paths, Along Own pre (p.map Step.access)) ↔
      ∀ q ∈ (lift pc i n ctx).block.paths.map (List.map Step.access), Along Own pre q := by
    simp only [List.mem_map, forall_exists_index, and_imp, forall_apply_eq_imp_iff₂]
  rw [hmap]
  by_cases hs : i.opcode.supported = true
  · have hscoped := Insn.scoped_paths hs
    rw [Insn.paths_lift hs, Insn.pairClash, hs, Bool.true_and, List.any_eq_false]
    simp only [List.mem_map, forall_exists_index, and_imp, forall_apply_eq_imp_iff₂]
    refine forall₂_congr fun p hp => ?_
    rw [Flow.along_append, and_iff_right (along_noUses fun a ha => (mem_declAccess ha).1),
      along_path hs hn (scoped_decl hs hpre) (hscoped p hp), Bool.not_eq_true]
  · have hf : i.opcode.supported = false := by simpa using hs
    rw [paths_unsupported hs, Insn.pairClash, hf]
    exact ⟨fun _ => rfl, fun _ q hq => by
      rw [List.mem_singleton.1 hq]
      exact along_noUses fun a ha => by rw [List.mem_singleton.1 ha]⟩

theorem valids_append {l m : List (Access Temp)} (hl : Valids l) (hm : Valids m) : Valids (l ++ m) :=
  fun a ha => (List.mem_append.1 ha).elim (hl a) (hm a)

/-- **The instructions of a packet**, one after the other. -/
theorem along_packet {pc : BitVec 64} : ∀ (is : List Insn) (n : Nat) (ctx : PacketContext) {pre : List (Access Temp)},
    n + is.length ≤ 10 → Valids pre →
      ((∀ p ∈ (packetBody (liftInsns pc n is ctx)).paths, Along Own pre (p.map Step.access)) ↔
        ∀ i ∈ is, i.pairClash = false)
  | [], _, _, _, _, _ =>
    ⟨fun _ i hi => absurd hi List.not_mem_nil, fun _ p hp => by rw [List.mem_singleton.1 hp]; trivial⟩
  | i :: is, n, ctx, pre, hn, hpre => by
    rw [List.length_cons] at hn
    have hone := along_lift pc i ctx (show n < 10 by omega) hpre
    have hrest : ∀ q ∈ (lift pc i n ctx).block.paths,
        ((∀ p ∈ (packetBody (liftInsns pc (n + 1) is (lift pc i n ctx).ctx)).paths,
          Along Own (pre ++ q.map Step.access) (p.map Step.access)) ↔ ∀ j ∈ is, j.pairClash = false) :=
      fun q hq => along_packet is _ _ (by omega) (valids_append hpre (valids_lift (by omega) hq))
    have hcons : packetBody (liftInsns pc n (i :: is) ctx) =
        (lift pc i n ctx).block ++ packetBody (liftInsns pc (n + 1) is (lift pc i n ctx).ctx) := rfl
    obtain ⟨q₀, hq₀⟩ := Block.exists_path (lift pc i n ctx).block
    obtain ⟨p₀, hp₀⟩ := Block.exists_path (packetBody (liftInsns pc (n + 1) is (lift pc i n ctx).ctx))
    have hpath : ∀ q ∈ (lift pc i n ctx).block.paths,
        ∀ p ∈ (packetBody (liftInsns pc (n + 1) is (lift pc i n ctx).ctx)).paths,
          (Along Own pre ((q ++ p).map Step.access) ↔
            Along Own pre (q.map Step.access) ∧ Along Own (pre ++ q.map Step.access) (p.map Step.access)) :=
      fun q _ p _ => by rw [List.map_append, Flow.along_append]
    rw [hcons, List.forall_mem_cons, ← hone]
    constructor
    · intro h
      have hall : ∀ q ∈ (lift pc i n ctx).block.paths,
        ∀ p ∈ (packetBody (liftInsns pc (n + 1) is (lift pc i n ctx).ctx)).paths,
          Along Own pre ((q ++ p).map Step.access) :=
        fun q hq p hp => h _ (Block.mem_paths_append.2 ⟨q, hq, p, hp, rfl⟩)
      exact ⟨fun q hq => ((hpath q hq p₀ hp₀).1 (hall q hq p₀ hp₀)).1,
        (hrest q₀ hq₀).1 fun p hp => ((hpath q₀ hq₀ p hp).1 (hall q₀ hq₀ p hp)).2⟩
    · rintro ⟨hq, hj⟩ p hp
      obtain ⟨q, hqm, r, hr, rfl⟩ := Block.mem_paths_append.1 hp
      exact (hpath q hqm r hr).2 ⟨hq q hqm, (hrest q hqm).2 hj r hr⟩

end Insns

section Whole

/-- The flags cleared before the packet. -/
def clearAccess : Nat → List Insn → List (Access Temp)
  | _, [] => []
  | n, i :: is =>
    if !i.part1 && i.isCondJump then ⟨[], [.branchTaken n]⟩ :: clearAccess (n + 1) is else clearAccess (n + 1) is

/-- The destination a transfer reads. -/
def Control.access (n : Nat) : Control → Access Temp
  | .jump d | .ret d | .call d =>
    ⟨if d = .register 4 (.temp (Temp.branchrDest n).index) then [.branchrDest n] else [], []⟩

/-- The paths of `branchTail`: the flag of a conditional branch is tested, and the branch is taken or the next is
tried. -/
def tailPaths (pc : BitVec 64) : Nat → List Insn → List (List (Access Temp))
  | _, [] => [[]]
  | n, i :: is =>
    if i.branches then
      let go := [(i.control pc n).access n]
      if i.isCondJump then (go :: tailPaths pc (n + 1) is).map (⟨[.branchTaken n], []⟩ :: ·) else [go]
    else tailPaths pc (n + 1) is

/-- Every path of a packet's IL: the flags cleared, the instructions, the write-back and the branches. -/
def packetPaths (h : HashOrder) (pc : BitVec 64) (cof : Bool) (is : List Insn) : List (List (Access Temp)) :=
  let ls := liftInsns pc 0 is .empty
  (packetBody ls).paths.flatMap fun p => (if cof then tailPaths pc 0 is else [[]]).map fun t =>
    (if cof then clearAccess 0 is else []) ++ (p.map Step.access ++
      ((h.order (lastCtx .empty ls).regs).map (fun d => Step.access (.inl (.il d.copyFromTemp))) ++ t))

/-- A step that reads variables with an index of their own, and sets none. -/
def Access.Solo (a : Access Temp) : Prop :=
  a.sets = [] ∧ ∀ t ∈ a.uses, t.Valid ∧ t.isPair = false ∧ t.isScratch = false

theorem along_solo : ∀ {l pre : List (Access Temp)}, Valids pre → (∀ a ∈ l, a.Solo) → Along Own pre l
  | [], _, _, _ => trivial
  | a :: l, pre, hpre, h => by
    have ha := h a List.mem_cons_self
    refine ⟨fun t ht => own_of_solo hpre (ha.2 t ht).1 (ha.2 t ht).2,
      along_solo ?_ fun b hb => h b (List.mem_cons_of_mem _ hb)⟩
    refine valids_append hpre fun b hb u hu => ?_
    rw [List.mem_singleton.1 hb, ha.1] at hu
    exact absurd hu List.not_mem_nil

theorem valids_clear : ∀ {is : List Insn} {n : Nat}, n + is.length ≤ 10 → Valids (clearAccess n is)
  | [], _, _ => fun a ha => absurd ha List.not_mem_nil
  | i :: is, n, hn => by
    rw [List.length_cons] at hn
    have ih : Valids (clearAccess (n + 1) is) := valids_clear (by omega)
    rw [clearAccess]
    split
    · intro a ha u hu
      rcases List.mem_cons.1 ha with rfl | ha
      · rw [List.mem_singleton.1 hu]
        exact show n < 10 by omega
      · exact ih a ha u hu
    · exact ih

theorem noUses_clear : ∀ {is : List Insn} {n : Nat}, ∀ a ∈ clearAccess n is, a.uses = []
  | [], _, a, ha => absurd ha List.not_mem_nil
  | i :: is, n, a, ha => by
    rw [clearAccess] at ha
    split at ha
    · rcases List.mem_cons.1 ha with rfl | ha
      · rfl
      · exact noUses_clear a ha
    · exact noUses_clear a ha

theorem solo_copyFromTemp {d : DestReg} (hd : d.Good) : (Step.access (.inl (.il d.copyFromTemp))).Solo := by
  have haccess : Step.access (.inl (.il d.copyFromTemp)) = ⟨[.reg 0 d.reg], []⟩ := by
    unfold DestReg.copyFromTemp
    split <;> rfl
  rw [haccess]
  refine ⟨rfl, fun t ht => ?_⟩
  rw [List.mem_singleton.1 ht]
  have hp3 : hexRegP3 = 93 := rfl
  have hreg : d.reg < numHexRegs := by
    rw [show numHexRegs = 100 from rfl]
    rcases hd with ⟨h, -⟩ | ⟨⟨-, h⟩, -⟩ <;> omega
  exact ⟨⟨Nat.zero_le 1, hreg⟩, rfl, rfl⟩

theorem solo_control {n : Nat} (hn : n < 10) (c : Control) : (c.access n).Solo := by
  have hsolo : ∀ d : LExpr Nat, (⟨if d = .register 4 (.temp (Temp.branchrDest n).index) then [.branchrDest n] else [],
    []⟩ :
      Access Temp).Solo := by
    intro d
    refine ⟨rfl, fun t ht => ?_⟩
    dsimp only at ht
    split at ht
    · rw [List.mem_singleton.1 ht]
      exact ⟨hn, rfl, rfl⟩
    · exact absurd ht List.not_mem_nil
  cases c with
  | jump d | ret d | call d => exact hsolo d

theorem solo_tail (pc : BitVec 64) : ∀ (is : List Insn) (n : Nat), n + is.length ≤ 10 → ∀ p ∈ tailPaths pc n is,
    ∀ a ∈ p, a.Solo
  | [], _, _, p, hp, a, ha => by
    rw [List.mem_singleton.1 hp] at ha
    exact absurd ha List.not_mem_nil
  | i :: is, n, hn, p, hp, a, ha => by
    rw [List.length_cons] at hn
    have hgo : ∀ a ∈ [(i.control pc n).access n], a.Solo := fun a ha => by
      rw [List.mem_singleton.1 ha]
      exact solo_control (by omega) _
    have ih := solo_tail pc is (n + 1) (by omega)
    simp only [tailPaths] at hp
    split at hp
    · split at hp
      · obtain ⟨q, hq, rfl⟩ := List.mem_map.1 hp
        rcases List.mem_cons.1 ha with rfl | ha
        · exact ⟨rfl, fun t ht => by rw [List.mem_singleton.1 ht]; exact ⟨show n < 10 by omega, rfl, rfl⟩⟩
        · rcases List.mem_cons.1 hq with rfl | hq
          · exact hgo a ha
          · exact ih q hq a ha
      · rw [List.mem_singleton.1 hp] at ha
        exact hgo a ha
    · exact ih p hp a ha

theorem valids_packet {pc : BitVec 64} : ∀ {is : List Insn} {n : Nat} {ctx : PacketContext}, n + is.length ≤ 10 →
    ∀ p ∈ (packetBody (liftInsns pc n is ctx)).paths, Valids (p.map Step.access)
  | [], _, _, _, p, hp => by
    rw [List.mem_singleton.1 hp]
    exact fun a ha => absurd ha List.not_mem_nil
  | i :: is, n, ctx, hn, p, hp => by
    rw [List.length_cons] at hn
    obtain ⟨q, hq, r, hr, rfl⟩ := Block.mem_paths_append.1 hp
    rw [List.map_append]
    exact valids_append (valids_lift (by omega) hq) (valids_packet (by omega) r hr)

theorem exists_tailPath {pc : BitVec 64} : ∀ (is : List Insn) (n : Nat), ∃ t, t ∈ tailPaths pc n is
  | [], _ => ⟨[], List.mem_singleton_self _⟩
  | i :: is, n => by
    simp only [tailPaths]
    split
    · split
      · exact ⟨_, List.mem_map.2 ⟨_, List.mem_cons_self, rfl⟩⟩
      · exact ⟨_, List.mem_singleton_self _⟩
    · exact exists_tailPath is (n + 1)

/-- **The variables of a packet are their own**, in every use along every path, exactly when no instruction reads the
copy of a pair behind an assignment of the scratch variable that shares its index. -/
theorem temps_own_iff (h : HashOrder) (pc : BitVec 64) (cof : Bool) (is : List Insn) (hlen : is.length ≤ 10) :
    (∀ p ∈ packetPaths h pc cof is, Along Own [] p) ↔ ∀ i ∈ is, i.pairClash = false := by
  have hflags : Valids (if cof then clearAccess 0 is else []) := by
    split
    · exact valids_clear (by omega)
    · exact fun a ha => absurd ha List.not_mem_nil
  have hnoUses : ∀ a ∈ (if cof then clearAccess 0 is else []), a.uses = [] := by
    split
    · exact noUses_clear
    · exact fun a ha => absurd ha List.not_mem_nil
  have hgood : ∀ d ∈ (lastCtx .empty (liftInsns pc 0 is .empty)).regs, d.Good :=
    good_lastCtx is 0 fun d hd => absurd hd List.not_mem_nil
  have hwrite : ∀ a ∈ (h.order (lastCtx .empty (liftInsns pc 0 is .empty)).regs).map
      fun d => Step.access (.inl (.il d.copyFromTemp)), a.Solo := by
    intro a ha
    obtain ⟨d, hd, rfl⟩ := List.mem_map.1 ha
    exact solo_copyFromTemp (hgood d ((h.perm _).mem_iff.1 hd))
  have htail : ∀ t ∈ (if cof then tailPaths pc 0 is else [[]]), ∀ a ∈ t, a.Solo := by
    split
    · exact solo_tail pc is 0 (by omega)
    · exact fun t ht a ha => by rw [List.mem_singleton.1 ht] at ha; exact absurd ha List.not_mem_nil
  rw [← along_packet is 0 .empty (by omega) hflags]
  have hpath : ∀ p ∈ (packetBody (liftInsns pc 0 is .empty)).paths, ∀ t ∈ (if cof then tailPaths pc 0 is else [[]]),
      (Along Own [] ((if cof then clearAccess 0 is else []) ++ (p.map Step.access ++
        ((h.order (lastCtx .empty (liftInsns pc 0 is .empty)).regs).map
          (fun d => Step.access (.inl (.il d.copyFromTemp))) ++
          t))) ↔ Along Own (if cof then clearAccess 0 is else []) (p.map Step.access)) := by
    intro p hp t ht
    have hbody : Valids (p.map Step.access) := valids_packet (by omega) p hp
    rw [Flow.along_append, Flow.along_append, and_iff_right (along_noUses hnoUses), List.nil_append]
    refine and_iff_left (along_solo (valids_append hflags hbody) fun a ha => ?_)
    exact (List.mem_append.1 ha).elim (hwrite a) (htail t ht a)
  have hsome : ∃ t, t ∈ (if cof then tailPaths pc 0 is else [[]]) := by
    split
    · exact exists_tailPath is 0
    · exact ⟨[], List.mem_singleton_self _⟩
  obtain ⟨t₀, ht₀⟩ := hsome
  simp only [packetPaths, List.mem_flatMap, List.mem_map]
  constructor
  · intro hall p hp
    exact (hpath p hp t₀ ht₀).1 (hall _ ⟨p, hp, t₀, ht₀, rfl⟩)
  · rintro hall _ ⟨p, hp, t, ht, rfl⟩
    exact (hpath p hp t ht).2 (hall p hp)

end Whole
end Hex
