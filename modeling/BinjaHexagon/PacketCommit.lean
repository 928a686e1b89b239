import BinjaHexagon.PacketTemps
/-!
# PacketCommit — which executed assignments a packet commits

Byte by byte: what the instructions of a packet assign to the destinations and registers, and what the write-back makes
of it.
-/
namespace Hex

open Bytes (byte)
open Flow (Block)

/-- What an act, executed in state `s`, assigns to byte `a`: through the temporary of a destination, or directly. -/
def LiftAct.assigns (s : PhysState) (a : Nat) : LiftAct → Option (BitVec 8)
  | .il (.setRegister n (.temp (.reg 0 r)) v) | .il (.setRegister n (.hex r) v) =>
    if Covers n r a then some (byte ((v.map LReg.index).eval s) (a - regBase r)) else none
  | _ => none

/-- The same, with the register whose temporary it goes through; a direct assignment goes through none. -/
def LiftAct.assignment (s : PhysState) (a : Nat) : LiftAct → Option (Option Nat × BitVec 8)
  | .il (.setRegister n (.temp (.reg 0 r)) v) =>
    if Covers n r a then some (some r, byte ((v.map LReg.index).eval s) (a - regBase r)) else none
  | .il (.setRegister n (.hex r) v) =>
    if Covers n r a then some (none, byte ((v.map LReg.index).eval s) (a - regBase r)) else none
  | _ => none

/-- The last assignment to byte `a` that an instruction executed. -/
def lastAssigned (l : BodyLog) (a : Nat) : Option (BitVec 8) :=
  (l.filterMap fun e => e.2.elim (LiftAct.assigns e.1 a) fun _ => none).getLast?

/-- What the instructions that execute an assignment to byte `a` leave there, in order. -/
def executed (pc : BitVec 64) (is : List Insn) (s : PhysState) (a : Nat) : List (BitVec 8) :=
  (bodyLogs (liftInsns pc 0 is .empty) s).filterMap (lastAssigned · a)

/-- The assignments to byte `a` that the packet executes, in order. -/
def assignments (pc : BitVec 64) (is : List Insn) (s : PhysState) (a : Nat) : List (Option Nat × BitVec 8) :=
  (bodyLogs (liftInsns pc 0 is .empty) s).flatten.filterMap fun e => e.2.elim (LiftAct.assignment e.1 a) fun _ => none

/-- What the last of them that goes through the temporary of a register leaves, or the last direct one. -/
def lastVia (pc : BitVec 64) (is : List Insn) (s : PhysState) (a : Nat) (via : Option Nat) : Option (BitVec 8) :=
  ((assignments pc is s a).filter (·.1 == via)).getLast?.map Prod.snd

/-- The last byte that the behaviours of `is` give, each act read by `f`. -/
def lastBehind (pc : BitVec 64) (is : List Insn) (s : PhysState) (f : PhysState → LiftAct → Option (BitVec 8)) :
    Option (BitVec 8) :=
  ((bodyLogs (liftInsns pc 0 is .empty) s).filterMap (lastOf f)).getLast?

section Assignments

variable {pc : BitVec 64} {is : List Insn} {s : PhysState} {a r : Nat} {v : BitVec 8} {via : Option Nat}

theorem getLast?_flatten {α β : Type} (g : α → Option β) : ∀ ls : List (List α),
    (ls.filterMap fun l => (l.filterMap g).getLast?).getLast? = (ls.flatten.filterMap g).getLast?
  | [] => rfl
  | l :: ls => by
    have ih := getLast?_flatten g ls
    rw [List.flatten_cons, List.filterMap_append, List.getLast?_append, ← ih, List.filterMap_cons]
    cases (l.filterMap g).getLast? with
    | none => rw [Option.or_none]
    | some b =>
      rw [List.getLast?_cons]
      cases (ls.filterMap fun l => (l.filterMap g).getLast?).getLast? <;> rfl

theorem lastBehind_eq (f : PhysState → LiftAct → Option (BitVec 8)) : lastBehind pc is s f =
    ((bodyLogs (liftInsns pc 0 is .empty) s).flatten.filterMap fun e => e.2.elim (f e.1) fun _ => none).getLast? :=
  getLast?_flatten (fun e : PhysState × Step => e.2.elim (f e.1) fun _ => none) _

theorem LiftAct.assigns_eq (x : LiftAct) : x.assigns s a = (x.assignment s a).map Prod.snd := by
  cases x with
  | branch k e => rfl
  | il x =>
    cases x with
    | setRegister n l v =>
      cases l with
      | hex r =>
        simp only [assigns, assignment]
        split <;> rfl
      | temp t =>
        cases t with
        | reg ss r =>
          rcases ss with _ | ss
          · simp only [assigns, assignment]
            split <;> rfl
          · rfl
        | _ => rfl
    | _ => rfl

theorem getLast?_executed : (executed pc is s a).getLast? = (assignments pc is s a).getLast?.map Prod.snd := by
  have hlast : (executed pc is s a).getLast? = _ := getLast?_flatten (fun e : PhysState × Step =>
    e.2.elim (LiftAct.assigns e.1 a) fun _ => none) (bodyLogs (liftInsns pc 0 is .empty) s)
  rw [hlast, assignments, ← List.getLast?_map, List.map_filterMap]
  refine congrArg List.getLast? (List.filterMap_congr fun e _ => ?_)
  rcases e with ⟨t, x | c⟩
  · exact x.assigns_eq
  · rfl

/-- What is put at the index of a destination is assigned through it. -/
theorem LiftAct.puts_eq (hr : r < numHexRegs) (ha : regBase r ≤ a) (x : LiftAct) :
    x.puts r (a - regBase r) s = ((x.assignment s a).filter (·.1 == some r)).map Prod.snd := by
  cases x with
  | branch k e => rfl
  | il x =>
    cases x with
    | setRegister n l v =>
      cases l with
      | hex q =>
        simp only [puts, assignment]
        split <;> rfl
      | temp t =>
        have hne : (∀ q, t ≠ .reg 0 q) → t.index ≠ r := by
          intro hno hi
          subst hi
          cases t with
          | reg ss q =>
            rcases ss with _ | ss
            · exact hno q rfl
            · simp only [Temp.index, numHexRegs] at hr
              omega
          | _ =>
            simp only [Temp.index, numHexRegs] at hr
            omega
        cases t with
        | reg ss q =>
          rcases ss with _ | ss
          · simp only [puts, assignment, index_reg_zero]
            by_cases hq : q = r
            · subst hq
              by_cases hc : Covers n q a
              · have hk : a - regBase q < n := by
                  have := hc.2
                  omega
                rw [if_pos ⟨rfl, hk⟩, if_pos hc]
                simp
              · have hk : ¬ a - regBase q < n := fun h => hc ⟨ha, by omega⟩
                rw [if_neg fun h => hk h.2, if_neg hc]
                rfl
            · rw [if_neg fun h => hq h.1]
              split
              · simp [hq]
              · rfl
          · exact if_neg fun h => hne (fun q h => by cases h) h.1
        | _ => exact if_neg fun h => hne (fun q h => by cases h) h.1
    | _ => rfl

theorem LiftAct.writes_eq (x : LiftAct) :
    x.writes a s = ((x.assignment s a).filter (·.1 == none)).map Prod.snd := by
  cases x with
  | branch k e => rfl
  | il x =>
    cases x with
    | setRegister n l v =>
      cases l with
      | hex r =>
        simp only [writes, assignment]
        split <;> rfl
      | temp t =>
        cases t with
        | reg ss r =>
          rcases ss with _ | ss
          · simp only [writes, assignment]
            split <;> rfl
          · rfl
        | _ => rfl
    | _ => rfl

theorem lastVia_eq {f : PhysState → LiftAct → Option (BitVec 8)}
    (hf : ∀ t x, f t x = ((LiftAct.assignment t a x).filter (·.1 == via)).map Prod.snd) :
    lastBehind pc is s f = lastVia pc is s a via := by
  rw [lastBehind_eq, lastVia, assignments, List.filter_filterMap, ← List.getLast?_map, List.map_filterMap]
  refine congrArg List.getLast? (List.filterMap_congr fun e _ => ?_)
  rcases e with ⟨t, x | c⟩
  · exact hf t x
  · rfl

/-- **Assigned last through the temporary of `r`**: what the behaviours put there last. -/
theorem lastBehind_puts (hr : r < numHexRegs) (ha : regBase r ≤ a) :
    lastBehind pc is s (LiftAct.puts r (a - regBase r)) = lastVia pc is s a (some r) :=
  lastVia_eq fun _ x => x.puts_eq hr ha

theorem lastBehind_writes : lastBehind pc is s (LiftAct.writes a) = lastVia pc is s a none :=
  lastVia_eq fun _ x => x.writes_eq

theorem lastVia_of_last (h : (assignments pc is s a).getLast? = some (via, v)) : lastVia pc is s a via = some v := by
  obtain ⟨l, hl⟩ := List.getLast?_eq_some_iff.1 h
  rw [lastVia, hl, List.filter_append, List.filter_cons_of_pos (by simp), List.filter_nil, List.getLast?_append]
  rfl

theorem lastVia_of_nil (h : assignments pc is s a = []) (via : Option Nat) : lastVia pc is s a via = none := by
  rw [lastVia, h]
  rfl

theorem bodyLogs_append (ls ms : List Lifted) : ∀ s, bodyLogs (ls ++ ms) s =
    bodyLogs ls s ++ bodyLogs ms ((packetBody ls).run bodySem s) := by
  induction ls with
  | nil => exact fun _ => rfl
  | cons l ls ih =>
    intro s
    rw [List.cons_append, bodyLogs, ih, bodyLogs, run_packetBody_cons, List.cons_append]

/-- **A register behind the instructions of a packet**: what was last written there directly. -/
theorem reg_packetBody_writes (a : Nat) : ∀ (is : List Insn) (n : Nat) (ctx : PacketContext) (s : PhysState),
    ((packetBody (liftInsns pc n is ctx)).run bodySem s).reg a =
      (((bodyLogs (liftInsns pc n is ctx) s).filterMap (lastOf (LiftAct.writes a))).getLast?).getD (s.reg a)
  | [], _, _, _ => rfl
  | i :: is, n, ctx, s => by
    rw [liftInsns, run_packetBody_cons, reg_packetBody_writes a is, Lifted.block, Block.run_append,
      (reg_log single_body a _).1, reg_run_decls, bodyLogs, List.filterMap_cons, Lifted.block, Block.run_append]
    generalize lastOf (LiftAct.writes a) ((lift pc i n ctx).body.log bodySem _) = last
    cases last with
    | none => rfl
    | some v => rw [List.getLast?_cons]; rfl

theorem reg_bodyState_writes (pc : BitVec 64) (is : List Insn) (s : PhysState) (a : Nat) :
    (bodyState pc is s).reg a = (lastVia pc is s a none).getD (s.reg a) := by
  rw [bodyState, reg_packetBody_writes, ← lastBehind_writes, lastBehind]

/-- The instructions in front of the first one that registers `r`. -/
def beforeReg (is : List Insn) (r : Nat) : List Insn := is.takeWhile fun i => (i.dests.find? (·.reg == r)).isNone

/-- The first registration loads what the instructions in front of it have left. -/
theorem firstLoad_before (pc : BitVec 64) (r k : Nat) :
    ∀ (is : List Insn) (n : Nat) (ctx : PacketContext) (s : PhysState),
    firstLoad pc r k is n ctx s = ((packetDests is).find? (·.reg == r)).bind fun d =>
      if (d.rw && decide (k < d.size)) = true then
        some (((packetBody (liftInsns pc n (beforeReg is r) ctx)).run bodySem s).reg (regBase r + k))
      else none
  | [], _, _, _ => rfl
  | i :: is, n, ctx, s => by
    rw [firstLoad, packetDests_cons, List.find?_append, beforeReg, List.takeWhile_cons]
    cases hf : i.dests.find? (·.reg == r) with
    | some d => rfl
    | none =>
      rw [Option.none_or, Option.isNone_none, if_pos rfl, liftInsns, run_packetBody_cons]
      exact firstLoad_before pc r k is (n + 1) (lift pc i n ctx).ctx ((lift pc i n ctx).block.run bodySem s)

/-- What the first instructions of a packet assign is assigned first. -/
theorem assignments_append (pc : BitVec 64) (is js : List Insn) (s : PhysState) (a : Nat) :
    ∃ rest, assignments pc (is ++ js) s a = assignments pc is s a ++ rest := by
  rw [assignments, assignments, liftInsns_append, bodyLogs_append, List.flatten_append, List.filterMap_append]
  exact ⟨_, rfl⟩

end Assignments

section Insns

variable {pc : BitVec 64} {i : Insn} {n a : Nat} {ctx : PacketContext} {d : DestReg}

/-- No destination of the instruction but `d` covers byte `a`, and nothing assigns it directly. -/
structure Alone (i : Insn) (d : DestReg) (a : Nat) : Prop where
  size : ∀ e ∈ i.dests, e.reg = d.reg → e.size = d.size
  reg : ∀ e ∈ i.dests, e.Covers a → e.reg = d.reg
  direct : ∀ q ∈ i.directWrites, ¬ Covers q.1 q.2 a

/-- An assignment through a destination stays within it. -/
theorem BodyDest.covers {m r : Nat} (h : BodyDest i (m, .temp (.reg 0 r))) (hc : Covers m r a) :
    ∃ e ∈ i.dests, e.reg = r ∧ e.Covers a := by
  obtain ⟨e, he, rfl, hsize⟩ := h.dest r rfl
  exact ⟨e, he, rfl, hc.1, Nat.lt_of_lt_of_le hc.2 (Nat.add_le_add_left hsize _)⟩

/-- What covers the byte alone is what its assignments go through. -/
theorem assigns_eq_puts (hd : d.Covers a) (hr : d.reg < numHexRegs) (hi : Alone i d a) {x : LiftAct}
    (hx : x ∈ (lift pc i n ctx).body.acts) (s : PhysState) : x.assigns s a = x.puts d.reg (a - regBase d.reg) s := by
  cases x with
  | branch m e => rfl
  | il x =>
    obtain ⟨-, hdest⟩ := body_dest hx
    cases x with
    | setRegister m l v =>
      have hdest := hdest (m, l) List.mem_cons_self
      cases l with
      | hex q => exact if_neg (hi.direct _ (hdest.direct q rfl))
      | temp t =>
        rcases hdest.other t rfl with ht | ⟨r, rfl⟩
        · have hput : (LiftAct.il (.setRegister m (.temp t) v)).puts d.reg (a - regBase d.reg) s = none := by
            refine if_neg fun h => ?_
            rw [h.1] at ht
            exact absurd hr (Nat.not_lt.2 ht)
          rw [hput]
          cases t with
          | reg ss r =>
            rcases ss with _ | ss
            · refine if_neg fun hc => ?_
              obtain ⟨e, he, rfl, hcov⟩ := hdest.covers hc
              rw [index_reg_zero, hi.reg e he hcov] at ht
              exact absurd hr (Nat.not_lt.2 ht)
            · rfl
          | _ => rfl
        · simp only [LiftAct.assigns, LiftAct.puts, index_reg_zero]
          by_cases hc : Covers m r a
          · obtain ⟨e, he, rfl, hcov⟩ := hdest.covers hc
            have hreg := hi.reg e he hcov
            obtain ⟨h1, h2⟩ := hc
            rw [if_pos ⟨h1, h2⟩, if_pos ⟨hreg, by rw [hreg] at h1 h2; omega⟩, hreg]
          · rw [if_neg hc, if_neg fun h => hc ?_]
            obtain ⟨rfl, hk⟩ := h
            exact ⟨hd.1, by have h1 := hd.1; omega⟩
    | _ => rfl

/-- A byte that no destination covers is assigned directly. -/
theorem assigns_eq_writes (hi : ∀ e ∈ i.dests, ¬ e.Covers a) {x : LiftAct} (hx : x ∈ (lift pc i n ctx).body.acts)
    (s : PhysState) : x.assigns s a = x.writes a s := by
  cases x with
  | branch m e => rfl
  | il x =>
    obtain ⟨-, hdest⟩ := body_dest hx
    cases x with
    | setRegister m l v =>
      have hdest := hdest (m, l) List.mem_cons_self
      cases l with
      | hex q => rfl
      | temp t =>
        cases t with
        | reg ss r =>
          rcases ss with _ | ss
          · refine if_neg fun hc => ?_
            obtain ⟨e, he, -, hcov⟩ := hdest.covers hc
            exact hi e he hcov
          · rfl
        | _ => rfl
    | _ => rfl

theorem lastAssigned_eq {f : PhysState → LiftAct → Option (BitVec 8)} {b : LiftBlock}
    (h : ∀ x ∈ b.acts, ∀ s : PhysState, x.assigns s a = f s x) (s : PhysState) :
    lastAssigned (b.log bodySem s) a = lastOf f (b.log bodySem s) := by
  refine (log_invariant (P := fun l _ => lastAssigned l a = lastOf f l) (fun x hx l s' hl => ?_)
    (fun c l s' hl => ?_) rfl).1
  · have hone : lastAssigned [(s', .inl x)] a = f s' x := (lastOf_act (fun s x => x.assigns s a) s' x).trans (h x hx s')
    have happ : lastAssigned (l ++ [(s', .inl x)]) a = (lastAssigned [(s', .inl x)] a).or (lastAssigned l a) :=
      lastOf_append (fun s x => x.assigns s a) l [(s', .inl x)]
    rw [happ, hone, hl, lastOf_append, lastOf_act]
  · have happ : lastAssigned (l ++ [(s', .inr c)]) a = (lastAssigned [(s', .inr c)] a).or (lastAssigned l a) :=
      lastOf_append (fun s x => x.assigns s a) l [(s', .inr c)]
    rw [happ, hl, lastOf_append]
    rfl

theorem reg_body (hi : ∀ e ∈ i.dests, ¬ e.Covers a) (s : PhysState) :
    ((lift pc i n ctx).body.run bodySem s).reg a =
      (lastAssigned ((lift pc i n ctx).body.log bodySem s) a).getD (s.reg a) := by
  rw [(reg_log single_body a s).1, lastAssigned_eq fun x hx s => assigns_eq_writes hi hx s]

theorem filterMap_bodyLogs {f g : BodyLog → Option (BitVec 8)} : ∀ (is : List Insn) (n : Nat) (ctx : PacketContext)
    (s : PhysState), (∀ i ∈ is, ∀ n ctx s, f ((lift pc i n ctx).body.log bodySem s) =
      g ((lift pc i n ctx).body.log bodySem s)) →
      (bodyLogs (liftInsns pc n is ctx) s).filterMap f = (bodyLogs (liftInsns pc n is ctx) s).filterMap g
  | [], _, _, _, _ => rfl
  | i :: is, n, ctx, s, h => by
    rw [liftInsns, bodyLogs, List.filterMap_cons, List.filterMap_cons, h i List.mem_cons_self,
      filterMap_bodyLogs is _ _ _ fun j hj => h j (List.mem_cons_of_mem _ hj)]

/-- **The temporary of a destination behind the instructions of a packet**, where it covers the byte alone. -/
theorem temp_packetBody (hd : d.Covers a) (hr : d.reg < numHexRegs) (is : List Insn) (s : PhysState)
    (hi : ∀ i ∈ is, Alone i d a) : (bodyState pc is s).temp d.reg (a - regBase d.reg) =
      (executed pc is s a).getLast?.getD
        (if loads is d.reg = true then s.reg a else s.temp d.reg (a - regBase d.reg)) := by
  have ha : regBase d.reg + (a - regBase d.reg) = a := Nat.add_sub_cancel' hd.1
  have hlogs : executed pc is s a =
      (bodyLogs (liftInsns pc 0 is .empty) s).filterMap (lastOf (LiftAct.puts d.reg (a - regBase d.reg))) :=
    filterMap_bodyLogs is 0 .empty s fun i hi' n ctx s =>
      lastAssigned_eq (fun x hx s => assigns_eq_puts hd hr (hi i hi') hx s) s
  have hloads : ((packetDests is).find? (·.reg == d.reg)).any (fun e => e.rw && decide (a - regBase d.reg < e.size)) =
      loads is d.reg := by
    rw [loads]
    cases hf : (packetDests is).find? (·.reg == d.reg) with
    | none => rfl
    | some e =>
      obtain ⟨i, hi', he⟩ := List.mem_flatMap.1 (List.mem_of_find?_eq_some hf)
      have hsize := (hi i hi').size e he (by simpa using List.find?_some hf)
      have hk : a - regBase d.reg < e.size := by
        have h1 := hd.1
        have h2 := hd.2
        omega
      simp only [Option.any_some, hk, decide_true, Bool.and_true]
  rw [bodyState, temp_packet hr, ← hlogs, if_pos (show PacketContext.empty.find d.reg = none from rfl),
    firstLoad_eq is 0 .empty s fun i hi' q hq => by rw [ha]; exact (hi i hi').direct q hq, hloads, ha]
  split <;> rfl

end Insns
end Hex
