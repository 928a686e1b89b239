import BinjaHexagon.Exec
/-!
# BranchTail — the branches of a packet, resolved once

What the tail of the emitted function does from the state after write-back: it tests the flags of the conditional
branches in order, and performs the first transfer that is due.
-/
namespace Hex

open Flow (Block Instr Sem At Runs Halts Cfg marks find step)

abbrev EmitLog := Flow.Log EmitAct (LExpr Nat) PhysState
abbrev EmitCfg := Cfg EmitAct (LExpr Nat) PhysState

/-- The first branch that is due: an unconditional one, or a conditional one whose flag is up. -/
def firstDue (due : Nat → Bool) : Nat → List Insn → Option (Nat × Insn)
  | _, [] => none
  | n, i :: is => if i.branches && (!i.isCondJump || due n) then some (n, i) else firstDue due (n + 1) is

theorem firstDue_congr {due due' : Nat → Bool} : ∀ {is : List Insn} {n : Nat},
    (∀ k i, is[k]? = some i → i.branches = true → i.isCondJump = true → due (n + k) = due' (n + k)) →
      firstDue due n is = firstDue due' n is
  | [], _, _ => rfl
  | i :: is, n, h => by
    have ih := @firstDue_congr due due' is (n + 1) fun k j hj => by
      have := h (k + 1) j (by simpa using hj)
      rwa [← Nat.add_assoc, Nat.add_right_comm] at this
    have h0 := h 0 i rfl
    unfold firstDue
    rw [ih]
    cases hb : i.branches <;> cases hc : i.isCondJump <;> simp_all

/-- What is left in the log by the transfer itself: a call comes back, a jump or return does not. -/
def Control.log (s : PhysState) : Option Control → EmitLog
  | some (.call d) => [(s, .inl (.call d))]
  | _ => []

/-- The state control leaves the packet with. -/
def Control.state (callee : BitVec 64 → PhysState → PhysState) (s : PhysState) : Option Control → PhysState
  | some (.call d) => callee (d.eval s) s
  | _ => s

/-- Where the packet's code ends: at the jump or return due, or past its last instruction. -/
def Control.Ends (code : List EmitInstr) (pc : Nat) : Option Control → Prop
  | some (.jump d) => code[pc]? = some (.exit (.jump d))
  | some (.ret d) => code[pc]? = some (.exit (.ret d))
  | some (.call _) | none => pc = code.length

/-- The entries of a log that test the flag of one of `is`, numbered from `n`. -/
def FlagTests (n : Nat) (is : List Insn) (tests : EmitLog) : Prop :=
  ∀ e ∈ tests, ∃ k i, is[k]? = some i ∧ i.branches = true ∧ i.isCondJump = true ∧ e.2 = .inr (takenTest (n + k))

theorem FlagTests.cons {n : Nat} {i : Insn} {is : List Insn} {tests : EmitLog} (h : FlagTests (n + 1) is tests) :
    FlagTests n (i :: is) tests := fun e he => by
  obtain ⟨k, j, hj, hb, hc, ht⟩ := h e he
  exact ⟨k + 1, j, by simpa using hj, hb, hc, by rw [ht, Nat.add_assoc, Nat.add_comm 1]⟩

section Cons

variable {pc : BitVec 64} {done l n : Nat} {i : Insn} {is : List Insn}

theorem branchTail_cond (hb : i.branches = true) (hc : i.isCondJump = true) :
    branchTail pc done l n (i :: is) = [.branch (takenTest n) l (l + 1), .label l] ++
      ((i.control pc n).code done ++ .label (l + 1) :: branchTail pc done (l + 2) (n + 1) is) := by
  simp only [branchTail, hb, hc, if_true]

theorem branchTail_uncond (hb : i.branches = true) (hc : i.isCondJump = false) :
    branchTail pc done l n (i :: is) =
      (i.control pc n).code done ++ .label (l + 1) :: branchTail pc done (l + 2) (n + 1) is := by
  simp only [branchTail, hb, hc, if_true, Bool.false_eq_true, if_false, List.nil_append]

theorem branchTail_other (hb : i.branches = false) :
    branchTail pc done l n (i :: is) = branchTail pc done l (n + 1) is := by
  simp only [branchTail, hb, Bool.false_eq_true, if_false]

end Cons

section Tail

variable (callee : BitVec 64 → PhysState → PhysState) {pc : BitVec 64} {code : List EmitInstr} {done : Nat}

theorem halts_control (hdone : find code done = some (code.length - 1))
    (hlast : code[code.length - 1]? = some (.label done)) (hlen : 0 < code.length) (c : Control) {k : Nat}
    (s : PhysState) (L : EmitLog) (h : At code k (c.code done)) :
    ∃ fin : EmitCfg, Halts (emitSem callee) code ⟨k, s, L⟩ fin ∧ fin.log = L ++ Control.log s (some c) ∧
      fin.st = Control.state callee s (some c) ∧ Control.Ends code fin.pc (some c) := by
  cases c with
  | jump d =>
    exact ⟨_, ⟨Runs.refl _ _ _, Flow.step_exit _ _ _ h.head⟩, by simp [Control.log], rfl, h.head⟩
  | ret d =>
    exact ⟨_, ⟨Runs.refl _ _ _, Flow.step_exit _ _ _ h.head⟩, by simp [Control.log], rfl, h.head⟩
  | call d =>
    have h1 := Flow.step_act (emitSem callee) s L h.head
    have h2 := Flow.step_goto (emitSem callee) (callee (d.eval s) s) (L ++ [(s, .inl (.call d))]) h.tail.head hdone
    have h3 := Flow.step_label (emitSem callee) (callee (d.eval s) s) (L ++ [(s, .inl (.call d))]) hlast
    refine ⟨⟨code.length, callee (d.eval s) s, L ++ [(s, .inl (.call d))]⟩, ⟨?_, Flow.step_end _ _ _⟩, rfl, rfl, rfl⟩
    exact (Runs.one h1).trans ((Runs.one h2).trans ((Runs.one h3).at rfl (by omega)))

/-- **The tail performs the first transfer due**, testing only flags of conditional branches on the way. -/
theorem halts_branchTail (hn : (marks code).Nodup) (hlast : code[code.length - 1]? = some (.label done))
    (hpos : 0 < code.length) : ∀ (is : List Insn) (l n k : Nat) (s : PhysState) (L : EmitLog),
    At code k (branchTail pc done l n is) → k + (branchTail pc done l n is).length = code.length →
    ∃ (fin : EmitCfg) (tests : EmitLog), Halts (emitSem callee) code ⟨k, s, L⟩ fin ∧
      let c := (firstDue (flagSet · s) n is).map fun w => w.2.control pc w.1
      fin.log = L ++ tests ++ Control.log s c ∧ FlagTests n is tests ∧
      fin.st = Control.state callee s c ∧ Control.Ends code fin.pc c
  | [], l, n, k, s, L, h, hlen => by
    have h1 := Flow.step_label (emitSem callee) s L h.head
    have hk : k + 1 = code.length := hlen
    rw [hk] at h1
    exact ⟨⟨code.length, s, L⟩, [], ⟨Runs.one h1, Flow.step_end _ _ _⟩, by simp [firstDue, Control.log],
      fun _ h => absurd h List.not_mem_nil, rfl, rfl⟩
  | i :: is, l, n, k, s, L, h, hlen => by
    have hdone := Flow.find_eq hn hlast
    unfold firstDue
    by_cases hb : i.branches = true
    · by_cases hc : i.isCondJump = true
      · rw [branchTail_cond hb hc] at h hlen
        have hnext := h.right.right
        by_cases hf : flagSet n s = true
        · have h1 := Flow.step_branch_true (emitSem callee) s L h.head ((takenTest_test n s).trans hf)
            (Flow.find_eq hn h.tail.head)
          have h2 := Flow.step_label (emitSem callee) s (L ++ [(s, .inr (takenTest n))]) h.tail.head
          obtain ⟨fin, hfin, hlog, hst, hends⟩ := halts_control callee hdone hlast hpos (i.control pc n) s
            (L ++ [(s, .inr (takenTest n))]) h.right.left
          refine ⟨fin, [(s, .inr (takenTest n))], (Runs.one h1).halts ((Runs.one h2).halts hfin), ?_⟩
          rw [if_pos (by simp [hb, hf])]
          refine ⟨hlog, fun e he => ?_, hst, hends⟩
          rw [List.mem_singleton.1 he]
          exact ⟨0, i, rfl, hb, hc, rfl⟩
        · have hf' : flagSet n s = false := by simpa using hf
          have h1 := Flow.step_branch_false (emitSem callee) s L h.head ((takenTest_test n s).trans hf')
            (Flow.find_eq hn hnext.head)
          have h2 := Flow.step_label (emitSem callee) s (L ++ [(s, .inr (takenTest n))]) hnext.head
          obtain ⟨fin, tests, hfin, hlog, htests, hst, hends⟩ := halts_branchTail hn hlast hpos is (l + 2) (n + 1) _ s
            (L ++ [(s, .inr (takenTest n))]) hnext.tail (by
              simp only [List.length_append, List.length_cons, List.length_nil] at hlen ⊢; omega)
          refine ⟨fin, (s, .inr (takenTest n)) :: tests, (Runs.one h1).halts ((Runs.one h2).halts hfin), ?_⟩
          rw [if_neg (by simp [hc, hf'])]
          refine ⟨by rw [hlog]; simp, fun e he => ?_, hst, hends⟩
          rcases List.mem_cons.1 he with rfl | he
          · exact ⟨0, i, rfl, hb, hc, rfl⟩
          · exact htests.cons e he
      · rw [branchTail_uncond hb (by simpa using hc)] at h hlen
        obtain ⟨fin, hfin, hlog, hst, hends⟩ := halts_control callee hdone hlast hpos (i.control pc n) s L h.left
        refine ⟨fin, [], hfin, ?_⟩
        rw [if_pos (by simp [hb, hc])]
        exact ⟨by rw [hlog, List.append_nil]; rfl, fun _ h => absurd h List.not_mem_nil, hst, hends⟩
    · rw [branchTail_other (by simpa using hb)] at h hlen
      obtain ⟨fin, tests, hfin, hlog, htests, hst, hends⟩ :=
        halts_branchTail hn hlast hpos is l (n + 1) k s L h hlen
      refine ⟨fin, tests, hfin, ?_⟩
      rw [if_neg (by simp [hb])]
      exact ⟨hlog, htests.cons, hst, hends⟩

/-- The labels of the tail are taken from `l` on, and `done` is marked once, at the end. -/
theorem marks_branchTail : ∀ (is : List Insn) (l n : Nat), done < l →
    (∀ m ∈ marks (branchTail pc done l n is), m = done ∨ l ≤ m) ∧ (marks (branchTail pc done l n is)).Nodup
  | [], l, n, _ => ⟨fun m hm => .inl (List.mem_singleton.1 hm), List.nodup_singleton _⟩
  | i :: is, l, n, hl => by
    have hcode : marks ((i.control pc n).code done) = [] := by cases i.control pc n <;> rfl
    by_cases hb : i.branches = true
    · obtain ⟨h1, h2⟩ := marks_branchTail is (l + 2) (n + 1) (by omega)
      have hnext : ((l + 1) :: marks (branchTail pc done (l + 2) (n + 1) is)).Nodup :=
        List.nodup_cons.2 ⟨fun h => by have := h1 _ h; omega, h2⟩
      have hmem : ∀ m ∈ (l + 1) :: marks (branchTail pc done (l + 2) (n + 1) is), m = done ∨ l + 1 ≤ m := by
        intro m hm
        rcases List.mem_cons.1 hm with rfl | hm
        · exact .inr (Nat.le_refl _)
        · have := h1 m hm; omega
      by_cases hc : i.isCondJump = true
      · rw [branchTail_cond hb hc]
        simp only [Flow.marks_append, hcode, List.nil_append, marks, List.cons_append]
        refine ⟨fun m hm => ?_, List.nodup_cons.2 ⟨fun h => by have := hmem _ h; omega, hnext⟩⟩
        rcases List.mem_cons.1 hm with rfl | hm
        · exact .inr (Nat.le_refl _)
        · have := hmem m hm; omega
      · rw [branchTail_uncond hb (by simpa using hc)]
        simp only [Flow.marks_append, hcode, List.nil_append, marks]
        exact ⟨fun m hm => by have := hmem m hm; omega, hnext⟩
    · rw [branchTail_other (by simpa using hb)]
      exact marks_branchTail is l (n + 1) hl

theorem getLast_branchTail : ∀ (is : List Insn) (l n : Nat), (branchTail pc done l n is).getLast? = some (.label done)
  | [], _, _ => rfl
  | i :: is, l, n => by
    have hcons : ∀ (c t : List EmitInstr), t.getLast? = some (.label done) →
        (c ++ .label (l + 1) :: t).getLast? = some (.label done) := by
      intro c t h
      cases t with
      | nil => cases h
      | cons a t => rw [List.getLast?_append, List.getLast?_cons_cons, h]; rfl
    by_cases hb : i.branches = true
    · have ih := getLast_branchTail is (l + 2) (n + 1)
      by_cases hc : i.isCondJump = true
      · rw [branchTail_cond hb hc, List.getLast?_append, hcons _ _ ih]; rfl
      · rw [branchTail_uncond hb (by simpa using hc), hcons _ _ ih]
    · rw [branchTail_other (by simpa using hb)]
      exact getLast_branchTail is l (n + 1)

end Tail
end Hex
