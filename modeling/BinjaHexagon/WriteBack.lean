import BinjaHexagon.Opcodes
import BinjaHexagon.PacketCommit
/-!
# WriteBack — what the registers hold behind a packet

A byte gets the temporary of the last destination that covers it, in the order the hash table is gone through.  That
holds the last executed assignment that went through it, else what the destination was loaded with, else what an earlier
packet left in the temporary.  Nothing is lost where the last executed assignment went through the destination that is
copied last, or that one holds the same byte.
-/
namespace Hex

open Bytes (byte)
open Flow (Block)

/-- One register covers byte `a`, every instruction that names it does so at one size, and none writes the byte
itself. -/
def CleanAt (is : List Insn) (a : Nat) : Prop :=
  ∀ d ∈ packetDests is, d.Covers a →
    (∀ e ∈ packetDests is, (e.reg = d.reg → e.size = d.size) ∧ (e.Covers a → e.reg = d.reg)) ∧
      ∀ q ∈ is.flatMap Insn.directWrites, ¬ Covers q.1 q.2 a

instance (is : List Insn) (a : Nat) : Decidable (CleanAt is a) := by
  unfold CleanAt DestReg.Covers
  infer_instance

/-- The byte that committing the executed assignments gives. -/
def committed (pc : BitVec 64) (is : List Insn) (s : PhysState) (a : Nat) : BitVec 8 :=
  (executed pc is s a).getLast?.getD (s.reg a)

/-- `regs_` behind the last instruction. -/
def clobbered (pc : BitVec 64) (is : List Insn) : List DestReg := (lastCtx .empty (liftInsns pc 0 is .empty)).regs

/-- Byte `a` of the register file, as destination `d` holds it before the write-back. -/
def tempByte (pc : BitVec 64) (is : List Insn) (s : PhysState) (d : DestReg) (a : Nat) : BitVec 8 :=
  (bodyState pc is s).temp d.reg (a - regBase d.reg)

/-- The destination that is copied back over byte `a` last. -/
def lastCopied (h : HashOrder) (pc : BitVec 64) (is : List Insn) (a : Nat) : Option DestReg :=
  ((h.order (clobbered pc is)).filter fun d => decide (d.Covers a)).getLast?

/-- The destinations that may be; where none covers the byte, the register itself is left. -/
def copies (pc : BitVec 64) (is : List Insn) (a : Nat) : List (Option DestReg) :=
  match (clobbered pc is).filter fun d => decide (d.Covers a) with
  | [] => [none]
  | d :: ds => (d :: ds).map some

/-- What a destination holds while nothing is assigned through it: the register, as the instructions before its first
registration left it, or what an earlier packet left in the temporary. -/
def started (pc : BitVec 64) (is : List Insn) (s : PhysState) (a : Nat) : Option DestReg → BitVec 8
  | none => s.reg a
  | some d =>
    if d.rw then (lastVia pc (beforeReg is d.reg) s a none).getD (s.reg a) else s.temp d.reg (a - regBase d.reg)

/-- What it holds behind the instructions of the packet. -/
def copyByte (pc : BitVec 64) (is : List Insn) (s : PhysState) (a : Nat) (c : Option DestReg) : BitVec 8 :=
  (lastVia pc is s a (c.map DestReg.reg)).getD (started pc is s a c)

/-- Byte `a` is safe with `c`: with no assignment executed, `c` was loaded with the register or has its byte by chance;
else the last one went through `c`, or another through `c` gave the same byte, or `c` started with it. -/
def CopySafe (pc : BitVec 64) (is : List Insn) (s : PhysState) (a : Nat) (c : Option DestReg) : Prop :=
  match (assignments pc is s a).getLast? with
  | none => ∀ d ∈ c, d.rw = true ∨ s.temp d.reg (a - regBase d.reg) = s.reg a
  | some (via, v) => via = c.map DestReg.reg ∨
    match lastVia pc is s a (c.map DestReg.reg) with
    | some w => w = v
    | none => started pc is s a c = v

section Order

variable {h : HashOrder} {ctx : PacketContext} {a : Nat} {d : DestReg}

theorem temp_copyFromTemp (d : DestReg) (s : PhysState) :
    ((d.copyFromTemp.map LReg.index).exec s).temp = s.temp := by
  unfold DestReg.copyFromTemp
  split <;> rfl

/-- **A byte gets the temporary of the last destination that covers it.** -/
theorem reg_copies : ∀ (l : List DestReg) (s : PhysState), (∀ d ∈ l, Fits d.size d.reg) →
    (execAll (l.map fun d => d.copyFromTemp.map LReg.index) s).reg a =
      ((l.filter fun d => decide (d.Covers a)).getLast?.map fun d => s.temp d.reg (a - regBase d.reg)).getD (s.reg a)
  | [], _, _ => rfl
  | d :: l, s, hf => by
    have ih := reg_copies l ((d.copyFromTemp.map LReg.index).exec s) fun e he => hf e (List.mem_cons_of_mem _ he)
    rw [temp_copyFromTemp, reg_copyFromTemp (hf d List.mem_cons_self)] at ih
    rw [List.map_cons, execAll, List.foldl_cons, ← execAll, ih, List.filter_cons]
    by_cases hc : regBase d.reg ≤ a ∧ a < regBase d.reg + d.size
    · have hd : decide (d.Covers a) = true := decide_eq_true hc
      rw [if_pos hc, if_pos hd, List.getLast?_cons]
      cases (l.filter fun d => decide (d.Covers a)).getLast? <;> rfl
    · have hd : ¬ decide (d.Covers a) = true := fun h => hc (of_decide_eq_true h)
      rw [if_neg hc, if_neg hd]

/-- The table may be gone through with `d` last. -/
def HashOrder.last (d : DestReg) : HashOrder where
  order l := if d ∈ l then l.erase d ++ [d] else l
  perm l := by
    split
    · rename_i hd
      exact List.perm_append_comm.trans (List.perm_cons_erase hd).symm
    · exact .rfl

theorem getLast_last {l : List DestReg} {p : DestReg → Bool} (hd : d ∈ l) (hp : p d = true) :
    (((HashOrder.last d).order l).filter p).getLast? = some d := by
  rw [show (HashOrder.last d).order l = l.erase d ++ [d] from if_pos hd, List.filter_append, List.filter_cons_of_pos hp,
    List.filter_nil, List.getLast?_append, List.getLast?_singleton, Option.some_or]

end Order

section Packet

variable {h : HashOrder} {pc : BitVec 64} {is : List Insn} {s : PhysState} {a : Nat} {d : DestReg}

theorem good_clobbered (hd : d ∈ clobbered pc is) : d.Good :=
  good_lastCtx is 0 (fun _ h => absurd h List.not_mem_nil) d hd

theorem mem_clobbered : d ∈ clobbered pc is ↔ (packetDests is).find? (·.reg == d.reg) = some d := by
  have hfind := find_lastCtx pc d.reg is 0 .empty
  rw [show PacketContext.empty.find d.reg = none from rfl, Option.none_or] at hfind
  rw [← hfind, clobbered, PacketContext.find]
  generalize lastCtx .empty (liftInsns pc 0 is .empty) = ctx
  constructor
  · intro hd
    have hsome : (ctx.regs.find? (·.reg == d.reg)).isSome = true := List.find?_isSome.2 ⟨d, hd, beq_self_eq_true d.reg⟩
    obtain ⟨e, he⟩ := Option.isSome_iff_exists.1 hsome
    rw [he, List.inj_on_of_nodup_map ctx.nodup (List.mem_of_find?_eq_some he) hd (by simpa using List.find?_some he)]
  · exact List.mem_of_find?_eq_some

/-- A destination of a packet is registered, at the size that was asked for first. -/
theorem exists_clobbered (pc : BitVec 64) (hd : d ∈ packetDests is) : ∃ e ∈ clobbered pc is, e.reg = d.reg ∧
    e ∈ packetDests is := by
  have hsome : ((packetDests is).find? (·.reg == d.reg)).isSome = true :=
    List.find?_isSome.2 ⟨d, hd, beq_self_eq_true d.reg⟩
  obtain ⟨e, he⟩ := Option.isSome_iff_exists.1 hsome
  have hreg : e.reg = d.reg := by simpa using List.find?_some he
  exact ⟨e, mem_clobbered.2 (by rw [hreg]; exact he), hreg, List.mem_of_find?_eq_some he⟩

theorem mem_packetDests (hd : d ∈ clobbered pc is) : d ∈ packetDests is :=
  List.mem_of_find?_eq_some (mem_clobbered.1 hd)

theorem reg_packetState (h : HashOrder) (pc : BitVec 64) (is : List Insn) (s : PhysState) (a : Nat) :
    (packetState h pc is s).reg a =
      ((((h.order (clobbered pc is)).filter fun d => decide (d.Covers a)).getLast?).map fun d =>
        tempByte pc is s d a).getD ((bodyState pc is s).reg a) := by
  rw [packetState, writeClobberedRegs, reg_copies]
  · rfl
  · exact fun d hd => (good_clobbered ((h.perm _).mem_iff.1 hd)).fits

/-- A byte one of the destinations covers, and none other, gets what that one holds. -/
theorem reg_packetState_of_covers (hd : d ∈ clobbered pc is) (hc : d.Covers a)
    (hone : ∀ e ∈ clobbered pc is, e.Covers a → tempByte pc is s e a = tempByte pc is s d a) :
    (packetState h pc is s).reg a = tempByte pc is s d a := by
  rw [reg_packetState]
  have hne : (h.order (clobbered pc is)).filter (fun d => decide (d.Covers a)) ≠ [] :=
    List.ne_nil_of_mem (List.mem_filter.2 ⟨(h.perm _).mem_iff.2 hd, decide_eq_true hc⟩)
  obtain ⟨e, he⟩ := Option.isSome_iff_exists.1 (List.getLast?_isSome.2 hne)
  obtain ⟨hmem, hcov⟩ := List.mem_filter.1 (List.mem_of_getLast? he)
  rw [he, Option.map_some, Option.getD_some]
  exact hone e ((h.perm _).mem_iff.1 hmem) (by simpa using hcov)

theorem reg_packetState_of_not_covers (hno : ∀ d ∈ clobbered pc is, ¬ d.Covers a) :
    (packetState h pc is s).reg a = (bodyState pc is s).reg a := by
  rw [reg_packetState, List.filter_eq_nil_iff.2 fun d hd => by simpa using hno d ((h.perm _).mem_iff.1 hd)]
  rfl

/-- A temporary holds what was last assigned through it, else what its destination started with. -/
theorem tempByte_eq_copyByte (hd : d ∈ clobbered pc is) (hc : d.Covers a) :
    tempByte pc is s d a = copyByte pc is s a (some d) := by
  have hr : d.reg < numHexRegs := (good_clobbered hd).reg_lt
  have hk : a - regBase d.reg < d.size := by
    have h1 := hc.1
    have h2 := hc.2
    omega
  have hload : firstLoad pc d.reg (a - regBase d.reg) is 0 .empty s =
      if d.rw = true then some ((bodyState pc (beforeReg is d.reg) s).reg a) else none := by
    rw [firstLoad_before, mem_clobbered.1 hd, Option.bind_some, Nat.add_sub_cancel' hc.1]
    simp only [hk, decide_true, Bool.and_true, bodyState]
  rw [tempByte, bodyState, temp_packet hr, if_pos (show PacketContext.empty.find d.reg = none from rfl), hload,
    ← lastBehind, lastBehind_puts hr hc.1, copyByte, Option.map_some, started]
  split
  · rw [Option.getD_some, reg_bodyState_writes]
  · rw [Option.getD_none]

/-- **What a byte gets**: what the destination holds that is copied last. -/
theorem reg_packetState_eq (h : HashOrder) (pc : BitVec 64) (is : List Insn) (s : PhysState) (a : Nat) :
    (packetState h pc is s).reg a = copyByte pc is s a (lastCopied h pc is a) := by
  rw [reg_packetState]
  cases hlast : lastCopied h pc is a with
  | none =>
    rw [show List.getLast? _ = none from hlast, reg_bodyState_writes]
    rfl
  | some d =>
    obtain ⟨hmem, hcov⟩ := List.mem_filter.1 (List.mem_of_getLast? hlast)
    rw [show List.getLast? _ = some d from hlast, Option.map_some, Option.getD_some,
      tempByte_eq_copyByte ((h.perm _).mem_iff.1 hmem) (by simpa using hcov)]

theorem mem_copies {c : Option DestReg} : c ∈ copies pc is a ↔
    (∀ d ∈ c, d ∈ clobbered pc is ∧ d.Covers a) ∧ (c = none → ∀ d ∈ clobbered pc is, ¬ d.Covers a) := by
  have hmem : ∀ d, d ∈ (clobbered pc is).filter (fun d => decide (d.Covers a)) ↔ d ∈ clobbered pc is ∧ d.Covers a := by
    simp [List.mem_filter]
  rw [copies]
  split
  · rename_i hnil
    have hnone : ∀ d ∈ clobbered pc is, ¬ d.Covers a := fun d hd hc => by
      have := (hmem d).2 ⟨hd, hc⟩
      rw [hnil] at this
      exact List.not_mem_nil this
    cases c with
    | none => simpa using hnone
    | some d => simpa using hnone d
  · rename_i e es hcons
    rw [hcons] at hmem
    cases c with
    | none =>
      have he := (hmem e).1 List.mem_cons_self
      constructor
      · intro h
        obtain ⟨x, -, hx⟩ := List.mem_map.1 h
        exact absurd hx (Option.some_ne_none x)
      · exact fun h => absurd he.2 (h.2 rfl e he.1)
    | some d =>
      have hin : some d ∈ (e :: es).map some ↔ d ∈ e :: es :=
        ⟨fun h => by obtain ⟨x, hx, hxd⟩ := List.mem_map.1 h; exact Option.some.inj hxd ▸ hx, List.mem_map_of_mem⟩
      rw [hin, hmem]
      simp

theorem lastCopied_mem (h : HashOrder) (pc : BitVec 64) (is : List Insn) (a : Nat) :
    lastCopied h pc is a ∈ copies pc is a := by
  rw [mem_copies]
  refine ⟨fun d hd => ?_, fun hnone d hd hc => ?_⟩
  · obtain ⟨hmem, hcov⟩ := List.mem_filter.1 (List.mem_of_getLast? hd)
    exact ⟨(h.perm _).mem_iff.1 hmem, by simpa using hcov⟩
  · have hin : d ∈ (h.order (clobbered pc is)).filter fun d => decide (d.Covers a) :=
      List.mem_filter.2 ⟨(h.perm _).mem_iff.2 hd, decide_eq_true hc⟩
    rw [List.getLast?_eq_none_iff.1 hnone] at hin
    exact List.not_mem_nil hin

theorem exists_lastCopied {c : Option DestReg} (hc : c ∈ copies pc is a) : ∃ h, lastCopied h pc is a = c := by
  obtain ⟨hsome, hnone⟩ := mem_copies.1 hc
  cases c with
  | none =>
    refine ⟨.added, ?_⟩
    rw [lastCopied, List.filter_eq_nil_iff.2 fun d hd => by
      simpa using hnone rfl d ((HashOrder.added.perm _).mem_iff.1 hd)]
    rfl
  | some d =>
    obtain ⟨hd, hcov⟩ := hsome d rfl
    exact ⟨.last d, getLast_last hd (decide_eq_true hcov)⟩

/-- While nothing was assigned, a loaded destination holds the register's byte. -/
theorem started_of_nil (hnil : assignments pc is s a = []) (d : DestReg) : started pc is s a (some d) =
    if d.rw = true then s.reg a else s.temp d.reg (a - regBase d.reg) := by
  obtain ⟨rest, hrest⟩ := assignments_append pc (beforeReg is d.reg)
    (is.dropWhile fun i => (i.dests.find? (·.reg == d.reg)).isNone) s a
  rw [beforeReg, List.takeWhile_append_dropWhile, hnil] at hrest
  have hbefore : assignments pc (beforeReg is d.reg) s a = [] := (List.append_eq_nil_iff.1 hrest.symm).1
  rw [started, lastVia_of_nil hbefore, Option.getD_none]

/-- **When a destination holds what is to be committed.** -/
theorem copySafe_iff {c : Option DestReg} : CopySafe pc is s a c ↔ copyByte pc is s a c = committed pc is s a := by
  rw [CopySafe, committed, getLast?_executed]
  cases hlast : (assignments pc is s a).getLast? with
  | none =>
    have hnil : assignments pc is s a = [] := List.getLast?_eq_none_iff.1 hlast
    rw [copyByte, lastVia_of_nil hnil, Option.map_none, Option.getD_none, Option.getD_none]
    cases c with
    | none => simp [started]
    | some d =>
      rw [started_of_nil hnil]
      cases hrw : d.rw <;> simp [hrw]
  | some x =>
    obtain ⟨via, v⟩ := x
    rw [Option.map_some, Option.getD_some, copyByte]
    by_cases hvia : via = c.map DestReg.reg
    · subst hvia
      simp [lastVia_of_last hlast]
    · simp only [hvia, false_or]
      cases lastVia pc is s a (c.map DestReg.reg) <;> simp

/-- **Registers that no destination covers**: the assignments are made as they are executed. -/
theorem reg_packetBody {pc : BitVec 64} {a : Nat} : ∀ (is : List Insn) (n : Nat) (ctx : PacketContext) (s : PhysState),
    (∀ i ∈ is, ∀ e ∈ i.dests, ¬ e.Covers a) →
      ((packetBody (liftInsns pc n is ctx)).run bodySem s).reg a =
        ((bodyLogs (liftInsns pc n is ctx) s).filterMap (lastAssigned · a)).getLast?.getD (s.reg a)
  | [], _, _, _, _ => rfl
  | i :: is, n, ctx, s, h => by
    rw [liftInsns, run_packetBody_cons, reg_packetBody is _ _ _ fun j hj => h j (List.mem_cons_of_mem _ hj),
      Lifted.block,
      Block.run_append, reg_body (h i List.mem_cons_self), run_decls, reg_decls, bodyLogs, List.filterMap_cons,
      Lifted.block, Block.run_append, run_decls]
    generalize lastAssigned _ a = last
    cases last with
    | none => rfl
    | some v => rw [List.getLast?_cons]; rfl

theorem reg_bodyState (hno : ∀ d ∈ packetDests is, ¬ d.Covers a) :
    (bodyState pc is s).reg a = committed pc is s a :=
  reg_packetBody is 0 .empty s fun i hi e he => hno e (List.mem_flatMap.2 ⟨i, hi, he⟩)

theorem CleanAt.alone (hclean : CleanAt is a) (hd : d ∈ packetDests is) (hc : d.Covers a) {i : Insn} (hi : i ∈ is) :
    Alone i d a := by
  obtain ⟨hdests, hdirect⟩ := hclean d hd hc
  exact {
    size := fun e he => (hdests e (List.mem_flatMap.2 ⟨i, hi, he⟩)).1
    reg := fun e he => (hdests e (List.mem_flatMap.2 ⟨i, hi, he⟩)).2
    direct := fun q hq => hdirect q (List.mem_flatMap.2 ⟨i, hi, hq⟩) }

/-- What a destination holds before the write-back: the last executed assignment, else the register it was loaded from,
else what the temporary copyByte at entry. -/
theorem tempByte_eq (hclean : CleanAt is a) (hd : d ∈ packetDests is) (hc : d.Covers a) (hr : d.reg < numHexRegs) :
    tempByte pc is s d a = (executed pc is s a).getLast?.getD
      (if loads is d.reg = true then s.reg a else s.temp d.reg (a - regBase d.reg)) := by
  exact temp_packetBody hc hr is s fun i hi => hclean.alone hd hc hi

/-- **What a clean byte gets**: the last executed assignment, or what its destinations were loaded with. -/
theorem reg_packetState_of_clean (hclean : CleanAt is a) (hd : d ∈ packetDests is) (hc : d.Covers a) :
    (packetState h pc is s).reg a = (executed pc is s a).getLast?.getD
      (if loads is d.reg = true then s.reg a else s.temp d.reg (a - regBase d.reg)) := by
  obtain ⟨e, he, hreg, hmem⟩ := exists_clobbered pc hd
  have hcov : e.Covers a := by
    rw [DestReg.Covers, hreg, ((hclean d hd hc).1 e hmem).1 hreg]
    exact hc
  have hr : e.reg < numHexRegs := (good_clobbered he).reg_lt
  rw [reg_packetState_of_covers he hcov, tempByte_eq hclean hmem hcov hr, hreg]
  intro f hf hfc
  rw [tempByte, tempByte, ((hclean e hmem hcov).1 f (mem_packetDests hf)).2 hfc]

/-- What is asked of byte `a`: a single executed assignment is kept, without one the register stays as it was, and
nothing else is ever left there. -/
structure KeptAt (h : HashOrder) (pc : BitVec 64) (is : List Insn) (s : PhysState) (a : Nat) : Prop where
  one : ∀ v, executed pc is s a = [v] → (packetState h pc is s).reg a = v
  untouched : executed pc is s a = [] → (packetState h pc is s).reg a = s.reg a
  origin : (packetState h pc is s).reg a ∈ s.reg a :: executed pc is s a

theorem keptAt_committed (heq : (packetState h pc is s).reg a = committed pc is s a) : KeptAt h pc is s a where
  one v hv := by rw [heq, committed, hv]; rfl
  untouched hv := by rw [heq, committed, hv]; rfl
  origin := by
    rw [heq, committed]
    cases hlast : (executed pc is s a).getLast? with
    | none => exact List.mem_cons_self
    | some v => exact List.mem_cons_of_mem _ (List.mem_of_getLast? hlast)

/-- A byte that is not overlapped is safe exactly when each destination that covers it was loaded with the register, or
is assigned, or happens to hold the register's byte already. -/
theorem keptAt_clean (hclean : CleanAt is a) : KeptAt h pc is s a ↔ ∀ d ∈ packetDests is, d.Covers a →
    loads is d.reg = true ∨ executed pc is s a ≠ [] ∨ s.temp d.reg (a - regBase d.reg) = s.reg a := by
  constructor
  · intro hkept d hd hc
    by_cases hl : loads is d.reg = true
    · exact .inl hl
    · refine .inr ?_
      by_cases he : executed pc is s a = []
      · have hreg := hkept.untouched he
        rw [reg_packetState_of_clean hclean hd hc, he, if_neg hl] at hreg
        exact .inr hreg
      · exact .inl he
  · intro hall
    refine keptAt_committed ?_
    by_cases hno : ∃ d ∈ packetDests is, d.Covers a
    · obtain ⟨d, hd, hc⟩ := hno
      rw [reg_packetState_of_clean hclean hd hc, committed]
      rcases hall d hd hc with hl | he | hstale
      · rw [if_pos hl]
      · obtain ⟨v, hv⟩ := Option.isSome_iff_exists.1 (List.getLast?_isSome.2 he)
        rw [hv]
        rfl
      · rw [hstale, ite_self]
    · have hnone : ∀ d ∈ packetDests is, ¬ d.Covers a := fun d hd hc => hno ⟨d, hd, hc⟩
      rw [reg_packetState_of_not_covers fun d hd => hnone d (mem_packetDests hd), reg_bodyState hnone]

/-- **A byte keeps what the packet's executed assignments give it** exactly when the destination that is copied last is
safe for it, or, with several instructions executing an assignment, at least holds a byte that one of them left or the
entry's. Where the byte is not overlapped, that takes a load, an executed assignment or chance. -/
theorem conditional_dests_kept (h : HashOrder) (pc : BitVec 64) (is : List Insn) (s : PhysState) (a : Nat) :
    (KeptAt h pc is s a ↔
      ((executed pc is s a).length ≤ 1 → CopySafe pc is s a (lastCopied h pc is a)) ∧
        (2 ≤ (executed pc is s a).length → copyByte pc is s a (lastCopied h pc is a) ∈ s.reg a :: executed pc is s a)) ∧
      (CleanAt is a → (KeptAt h pc is s a ↔ ∀ d ∈ packetDests is, d.Covers a →
        loads is d.reg = true ∨ executed pc is s a ≠ [] ∨ s.temp d.reg (a - regBase d.reg) = s.reg a)) := by
  refine ⟨⟨fun hkept => ⟨fun hlen => copySafe_iff.2 ?_, fun _ => ?_⟩, fun ⟨hfew, hmany⟩ => ?_⟩, keptAt_clean⟩
  · rw [← reg_packetState_eq]
    rcases hexec : executed pc is s a with _ | ⟨v, _ | ⟨w, vs⟩⟩
    · rw [hkept.untouched hexec, committed, hexec]
      rfl
    · rw [hkept.one v hexec, committed, hexec]
      rfl
    · rw [hexec] at hlen
      exact absurd hlen (by simp)
  · rw [← reg_packetState_eq]
    exact hkept.origin
  · by_cases hlen : (executed pc is s a).length ≤ 1
    · exact keptAt_committed ((reg_packetState_eq h pc is s a).trans (copySafe_iff.1 (hfew hlen)))
    · refine ⟨fun v hv => ?_, fun hnil => ?_, ?_⟩
      · rw [hv] at hlen
        exact absurd (Nat.le_refl 1) hlen
      · rw [hnil] at hlen
        exact absurd (Nat.zero_le 1) hlen
      · rw [reg_packetState_eq]
        exact hmany (by omega)

/-- `if (p0) r0=add(r1,r2)`. -/
def addIfP0 : Insn := Opcodes.a2Paddt.insn [0, 0, 1, 2] [] (by decide)

/-- `p0` is false, and an earlier packet left 7 in the temporary of `r0`. -/
def staleTempState : PhysState := ⟨fun _ => 0, fun t k => if t = 0 ∧ k = 0 then 7 else 0, fun _ => 0⟩

/-- The cancelled addition leaves the stale temporary in `r0`. -/
theorem cancelled_add_clobbers : executed 0 [addIfP0] staleTempState 0 = [] ∧
    (packetState .added 0 [addIfP0] staleTempState).reg 0 = 7 ∧ staleTempState.reg 0 = 0 ∧
      ¬ KeptAt .added 0 [addIfP0] staleTempState 0 := by
  have hreg : (packetState .added 0 [addIfP0] staleTempState).reg 0 = 7 := by decide +kernel
  have hexec : executed 0 [addIfP0] staleTempState 0 = [] := by decide +kernel
  refine ⟨hexec, hreg, rfl, fun hkept => ?_⟩
  have := hkept.untouched hexec
  rw [hreg] at this
  exact absurd this (by decide)

end Packet

section Overlap

variable {h : HashOrder} {pc : BitVec 64} {is : List Insn} {s : PhysState} {a : Nat} {d : DestReg}

/-- The write-back leaves one state in every order, the one that committing the executed assignments gives. -/
structure Commits (pc : BitVec 64) (is : List Insn) (s : PhysState) : Prop where
  order : ∀ h h' a, (packetState h pc is s).reg a = (packetState h' pc is s).reg a
  values : ∀ h a, (packetState h pc is s).reg a = committed pc is s a

/-- The byte a destination starts with, where nothing assigns its register directly. -/
def initialByte (s : PhysState) (a : Nat) (d : DestReg) : BitVec 8 :=
  if d.rw then s.reg a else s.temp d.reg (a - regBase d.reg)

/-- What two destinations of one byte have to satisfy, by which of their writers executed. -/
def PairAgree (s : PhysState) (a : Nat) (d e : DestReg) : Option (BitVec 8) → Option (BitVec 8) → Prop
  | none, none => initialByte s a d = s.reg a ∧ initialByte s a e = s.reg a
  | some v, none => initialByte s a e = v
  | none, some w => initialByte s a d = w
  | some v, some w => v = w

theorem values_iff : (∀ h a, (packetState h pc is s).reg a = committed pc is s a) ↔
    ∀ a, ∀ c ∈ copies pc is a, CopySafe pc is s a c := by
  constructor
  · intro hvals a c hc
    obtain ⟨h, hlast⟩ := exists_lastCopied hc
    rw [copySafe_iff, ← hlast, ← reg_packetState_eq]
    exact hvals h a
  · intro hall h a
    rw [reg_packetState_eq]
    exact copySafe_iff.1 (hall a _ (lastCopied_mem h pc is a))

theorem order_iff : (∀ h h' a, (packetState h pc is s).reg a = (packetState h' pc is s).reg a) ↔
    ∀ a, ∀ c ∈ copies pc is a, ∀ c' ∈ copies pc is a, copyByte pc is s a c = copyByte pc is s a c' := by
  constructor
  · intro horder a c hc c' hc'
    obtain ⟨h, hlast⟩ := exists_lastCopied hc
    obtain ⟨h', hlast'⟩ := exists_lastCopied hc'
    rw [← hlast, ← hlast', ← reg_packetState_eq, ← reg_packetState_eq]
    exact horder h h' a
  · intro hall h h' a
    rw [reg_packetState_eq, reg_packetState_eq]
    exact hall a _ (lastCopied_mem h pc is a) _ (lastCopied_mem h' pc is a)

/-- **Two destinations of one byte**, with nothing assigned past them: both writers cancelled, one of them, or none. -/
theorem copySafe_pair {e : DestReg}
    (honly : ∀ x ∈ assignments pc is s a, x.1 = some d.reg ∨ x.1 = some e.reg) :
    CopySafe pc is s a (some d) ∧ CopySafe pc is s a (some e) ↔
      PairAgree s a d e (lastVia pc is s a (some d.reg)) (lastVia pc is s a (some e.reg)) := by
  have hstart : ∀ f : DestReg, started pc is s a (some f) = initialByte s a f := by
    intro f
    obtain ⟨rest, hrest⟩ := assignments_append pc (beforeReg is f.reg)
      (is.dropWhile fun i => (i.dests.find? (·.reg == f.reg)).isNone) s a
    rw [beforeReg, List.takeWhile_append_dropWhile, ← beforeReg] at hrest
    have hdirect : lastVia pc (beforeReg is f.reg) s a none = none := by
      rw [lastVia, List.filter_eq_nil_iff.2]
      · rfl
      · intro x hx
        have hmem : x ∈ assignments pc is s a := by
          rw [hrest]
          exact List.mem_append_left _ hx
        rcases honly x hmem with h | h <;> simp [h]
    rw [started, hdirect, Option.getD_none, initialByte]
  cases hlast : (assignments pc is s a).getLast? with
  | none =>
    have hnil : assignments pc is s a = [] := List.getLast?_eq_none_iff.1 hlast
    rw [copySafe_iff, copySafe_iff, committed, getLast?_executed, hlast, copyByte, copyByte, hstart, hstart]
    simp only [Option.map_some, Option.map_none, Option.getD_none, lastVia_of_nil hnil, PairAgree]
  | some x =>
    obtain ⟨via, v⟩ := x
    have hvia := lastVia_of_last hlast
    have hcommit : committed pc is s a = v := by rw [committed, getLast?_executed, hlast]; rfl
    rw [copySafe_iff, copySafe_iff, hcommit, copyByte, copyByte, hstart, hstart]
    simp only [Option.map_some]
    rcases honly _ (List.mem_of_getLast? hlast) with h | h
    · rw [show via = some d.reg from h] at hvia
      rw [hvia]
      cases lastVia pc is s a (some e.reg) with
      | none => simp [PairAgree]
      | some w => simp [PairAgree, eq_comm]
    · rw [show via = some e.reg from h] at hvia
      rw [hvia]
      cases lastVia pc is s a (some d.reg) <;> simp [PairAgree]

theorem copySafe_clean (hclean : CleanAt is a) (hd : d ∈ clobbered pc is) (hc : d.Covers a) :
    CopySafe pc is s a (some d) ↔
      loads is d.reg = true ∨ executed pc is s a ≠ [] ∨ s.temp d.reg (a - regBase d.reg) = s.reg a := by
  rw [copySafe_iff, ← tempByte_eq_copyByte hd hc, tempByte_eq hclean (mem_packetDests hd) hc
    (good_clobbered hd).reg_lt, committed]
  by_cases he : executed pc is s a = []
  · rw [he]
    by_cases hl : loads is d.reg = true
    · simp [hl]
    · simp [hl]
  · obtain ⟨v, hv⟩ := Option.isSome_iff_exists.1 (List.getLast?_isSome.2 he)
    rw [hv]
    exact ⟨fun _ => .inr (.inl he), fun _ => rfl⟩

/-- **The write-back commits the executed assignments, in every order,** exactly when each destination that may be
copied over a byte is safe for it; the order alone does not matter exactly when they hold the same byte.  Two
destinations of a byte are safe by which of their writers executed, and one that stands alone by a load, an assignment
or chance. -/
theorem write_back_commits (pc : BitVec 64) (is : List Insn) (s : PhysState) :
    (Commits pc is s ↔ ∀ a, ∀ c ∈ copies pc is a, CopySafe pc is s a c) ∧
      ((∀ h h' a, (packetState h pc is s).reg a = (packetState h' pc is s).reg a) ↔
        ∀ a, ∀ c ∈ copies pc is a, ∀ c' ∈ copies pc is a, copyByte pc is s a c = copyByte pc is s a c') ∧
      (∀ a (d e : DestReg), (∀ x ∈ assignments pc is s a, x.1 = some d.reg ∨ x.1 = some e.reg) →
        (CopySafe pc is s a (some d) ∧ CopySafe pc is s a (some e) ↔
          PairAgree s a d e (lastVia pc is s a (some d.reg)) (lastVia pc is s a (some e.reg)))) ∧
      ∀ a, CleanAt is a → ∀ d ∈ clobbered pc is, d.Covers a → (CopySafe pc is s a (some d) ↔
        loads is d.reg = true ∨ executed pc is s a ≠ [] ∨ s.temp d.reg (a - regBase d.reg) = s.reg a) := by
  refine ⟨⟨fun hc => values_iff.1 hc.values, fun hall => ?_⟩, order_iff, fun a d e => copySafe_pair,
    fun a hclean d hd hc => copySafe_clean hclean hd hc⟩
  have hvals := values_iff.2 hall
  exact ⟨fun h h' a => (hvals h a).trans (hvals h' a).symm, hvals⟩

/-- `r31:30=deallocframe(r16):raw`. -/
def frameToPair : Insn := Opcodes.l2Deallocframe.insn [30, 16] [] (by decide)

/-- `if (p0) r31=add(r4,r5)`. -/
def addToOddHalf : Insn := Opcodes.a2Paddt.insn [0, 31, 4, 5] [] (by decide)

def pairAndOddHalf : List Insn := [frameToPair, addToOddHalf]

/-- The frame holds 5 in every byte, `p0` is false, and an earlier packet left 7 in the temporary of `r31`. -/
def oddHalfState : PhysState := ⟨fun _ => 0, fun t k => if t = 31 ∧ k = 0 then 7 else 0, fun _ => 5⟩

/-- The copy of the cancelled half replaces the executed write of the pair, or does not, as the order has it. -/
theorem pair_lost_to_half : executed 0 pairAndOddHalf oddHalfState 124 = [5] ∧
    (packetState (.last ⟨false, 4, 31⟩) 0 pairAndOddHalf oddHalfState).reg 124 = 7 ∧
      (packetState (.last ⟨false, 8, 30⟩) 0 pairAndOddHalf oddHalfState).reg 124 = 5 ∧
        ¬ Commits 0 pairAndOddHalf oddHalfState := by
  have hhalf : (packetState (.last ⟨false, 4, 31⟩) 0 pairAndOddHalf oddHalfState).reg 124 = 7 := by decide +kernel
  have hpair : (packetState (.last ⟨false, 8, 30⟩) 0 pairAndOddHalf oddHalfState).reg 124 = 5 := by decide +kernel
  refine ⟨by decide +kernel, hhalf, hpair, fun hcommits => ?_⟩
  have := hcommits.order (.last ⟨false, 4, 31⟩) (.last ⟨false, 8, 30⟩) 124
  rw [hhalf, hpair] at this
  exact absurd this (by decide)

end Overlap
end Hex
