import BinjaHexagon.BranchRun
/-!
# TailPaths — the transfers the emitted function can leave by

On a path of the emitted code a test may go either way.  A path leaves by the transfer of a branch exactly when no
unconditional branch stands before it, and comes to the packet behind by a call, or where every branch is conditional.
-/
namespace Hex

open Flow (Block Instr At Reaches marks uses find)

/-- No unconditional branch stands before the instruction. -/
def LiveIn (is : List Insn) (i : Insn) : Prop :=
  ∃ pre post, is = pre ++ i :: post ∧ ∀ u ∈ pre, u.branches = true → u.isCondJump = true

/-- The transfer of instruction `i`, number `n` of `is`, begins at `k`: behind its test, if it has one. -/
def TransferAt (pc : BitVec 64) (code : List EmitInstr) (is : List Insn) (n : Nat) (i : Insn) (k : Nat) : Prop :=
  i.branches = true ∧ ∃ pre post A done l, is = pre ++ i :: post ∧ n = pre.length ∧
    code = A ++ branchTail pc done l n (i :: post) ∧ k = A.length + if i.isCondJump then 2 else 0

/-- A path of the code comes to the transfer of instruction `i`. -/
def CanLeave (pc : BitVec 64) (code : List EmitInstr) (is : List Insn) (n : Nat) (i : Insn) : Prop :=
  ∃ k, TransferAt pc code is n i k ∧ Reaches code 0 k

section Tail

variable {pc : BitVec 64} {done : Nat}

theorem control_call {i : Insn} {n : Nat} : (∃ d, i.control pc n = .call d) ↔ i.isJump = false := by
  unfold Insn.control
  cases i.isJump <;> cases i.isIndirect <;> cases i.isCall <;> simp
  all_goals split <;> simp

theorem getElem?_mid {α : Type} (A : List α) (x : α) (B : List α) : (A ++ x :: B)[A.length]? = some x := by simp

/-- A transfer is one instruction nothing falls out of, or a call that skips to the end. -/
theorem code_cases (c : Control) (done : Nat) : (∀ x ∈ uses (c.code done), x = done ∧ ∃ d, c = .call d) ∧
    marks (c.code done) = [] ∧ ∃ C x, c.code done = C ++ [x] ∧ x.stops = true := by
  cases c with
  | jump d => exact ⟨fun _ h => absurd h List.not_mem_nil, rfl, [], _, rfl, rfl⟩
  | ret d => exact ⟨fun _ h => absurd h List.not_mem_nil, rfl, [], _, rfl, rfl⟩
  | call d => exact ⟨fun x hx => ⟨List.mem_singleton.1 hx, d, rfl⟩, rfl, [.act (.call d)], _, rfl, rfl⟩

theorem length_code (c : Control) (done done' : Nat) : (c.code done).length = (c.code done').length := by
  cases c <;> rfl

theorem length_branchTail (done done' : Nat) : ∀ (is : List Insn) (l l' n : Nat),
    (branchTail pc done l n is).length = (branchTail pc done' l' n is).length
  | [], _, _, _ => rfl
  | i :: is, l, l', n => by
    have ih := length_branchTail done done' is
    by_cases hb : i.branches = true
    · by_cases hc : i.isCondJump = true
      · rw [branchTail_cond hb hc, branchTail_cond hb hc]
        simp only [List.length_append, List.length_cons, List.length_nil, length_code _ done done', ih (l + 2) (l' + 2)]
      · rw [branchTail_uncond hb (by simpa using hc), branchTail_uncond hb (by simpa using hc)]
        simp only [List.length_append, List.length_cons, length_code _ done done', ih (l + 2) (l' + 2)]
    · rw [branchTail_other (by simpa using hb), branchTail_other (by simpa using hb), ih l l']

/-- Where the test goes the other way, the path comes behind the transfer. -/
theorem reaches_skip {code A C D : List EmitInstr} {c : LExpr Nat} {l : Nat} (hn : (marks code).Nodup)
    (hcode : code = A ++ ([.branch c l (l + 1), .label l] ++ (C ++ .label (l + 1) :: D))) :
    Reaches code A.length (A.length + C.length + 3) := by
  have htest : code[A.length]? = some (.branch c l (l + 1)) := by
    rw [hcode]
    exact getElem?_mid A _ _
  have hlabel : code[A.length + C.length + 2]? = some (.label (l + 1)) := by
    have hmid := getElem?_mid (A ++ [.branch c l (l + 1), .label l] ++ C) (.label (l + 1)) D
    rw [hcode, ← hmid]
    simp only [List.append_assoc, List.cons_append, List.nil_append, List.length_append, List.length_cons]
    congr 1
  exact .head (Flow.next_branch_false htest (Flow.find_eq hn hlabel)) (.single (Flow.next_label hlabel))

/-- **The tail of a longer list** begins with that of its first part: it jumps to its own labels, to the end only
behind a call, and lets a path through where all its branches are conditional. -/
theorem branchTail_append (pc : BitVec 64) (done : Nat) : ∀ (pre rest : List Insn) (l n : Nat),
    ∃ (S : List EmitInstr) (l' : Nat),
    branchTail pc done l n (pre ++ rest) = S ++ branchTail pc done l' (n + pre.length) rest ∧
      (∀ x ∈ uses S, x ∈ marks S ∨ x = done ∧ ∃ u ∈ pre, u.branches = true ∧ u.isJump = false) ∧
      ((∀ u ∈ pre, u.branches = true → u.isCondJump = true) → ∀ A C : List EmitInstr, (marks (A ++ (S ++ C))).Nodup →
        Reaches (A ++ (S ++ C)) A.length (A ++ S).length)
  | [], rest, l, n => ⟨[], l, rfl, fun _ h => absurd h List.not_mem_nil,
      fun _ A C _ => by rw [List.append_nil]; exact .refl⟩
  | u :: pre, rest, l, n => by
    have hlen : ∀ m, m + (u :: pre).length = m + 1 + pre.length := fun m => by rw [List.length_cons]; omega
    by_cases hb : u.branches = true
    · obtain ⟨S, l', heq, huses, hreach⟩ := branchTail_append pc done pre rest (l + 2) (n + 1)
      obtain ⟨hcode, hmarks, -⟩ := code_cases (u.control pc n) done
      have hctrl : ∀ x ∈ uses ((u.control pc n).code done), x = done ∧ u.isJump = false := fun x hx =>
        ⟨(hcode x hx).1, control_call.1 (hcode x hx).2⟩
      have htail : ∀ x ∈ uses S, x ∈ marks S ∨ x = done ∧ ∃ v ∈ u :: pre, v.branches = true ∧ v.isJump = false := by
        intro x hx
        rcases huses x hx with h | ⟨h, v, hv, hvb⟩
        · exact .inl h
        · exact .inr ⟨h, v, List.mem_cons_of_mem _ hv, hvb⟩
      by_cases hc : u.isCondJump = true
      · refine ⟨[.branch (takenTest n) l (l + 1), .label l] ++ ((u.control pc n).code done ++ .label (l + 1) :: S),
          l', ?_, fun x hx => ?_, fun hpre A C hn => ?_⟩
        · rw [List.cons_append, branchTail_cond hb hc, heq, hlen]
          simp only [List.append_assoc, List.cons_append, List.nil_append]
        · simp only [Flow.uses_append, Flow.marks_append, uses, marks, hmarks, List.mem_append, List.mem_cons,
            List.nil_append, List.not_mem_nil, or_false] at hx ⊢
          rcases hx with (rfl | rfl) | hx | hx
          · exact .inl (.inl rfl)
          · exact .inl (.inr (.inl rfl))
          · exact .inr ⟨(hctrl x hx).1, u, .inl rfl, hb, (hctrl x hx).2⟩
          · rcases htail x hx with h | ⟨h, v, hv, hvb⟩
            · exact .inl (.inr (.inr h))
            · exact .inr ⟨h, v, List.mem_cons.1 hv, hvb⟩
        · have hlater : A ++ (([.branch (takenTest n) l (l + 1), .label l] ++
              ((u.control pc n).code done ++ .label (l + 1) :: S)) ++ C) =
              (A ++ [.branch (takenTest n) l (l + 1), .label l] ++ (u.control pc n).code done ++ [.label (l + 1)]) ++
                (S ++ C) := by
            simp only [List.append_assoc, List.cons_append, List.nil_append]
          have hskip := reaches_skip (c := takenTest n) (l := l) (A := A) (C := (u.control pc n).code done)
            (D := S ++ C) hn (by simp only [List.append_assoc, List.cons_append, List.nil_append])
          have hrest := hreach (fun v hv => hpre v (List.mem_cons_of_mem _ hv)) _ C (hlater ▸ hn)
          rw [← hlater] at hrest
          refine hskip.trans (hrest.at ?_ ?_)
          · simp only [List.length_append, List.length_cons, List.length_nil]
            omega
          · simp only [List.length_append, List.length_cons, List.length_nil]
            omega
      · refine ⟨(u.control pc n).code done ++ .label (l + 1) :: S, l', ?_, fun x hx => ?_, fun hpre => ?_⟩
        · rw [List.cons_append, branchTail_uncond hb (by simpa using hc), heq, hlen]
          simp only [List.append_assoc, List.cons_append]
        · simp only [Flow.uses_append, Flow.marks_append, uses, marks, hmarks, List.mem_append, List.mem_cons,
            List.nil_append] at hx ⊢
          rcases hx with hx | hx
          · exact .inr ⟨(hctrl x hx).1, u, .inl rfl, hb, (hctrl x hx).2⟩
          · rcases htail x hx with h | ⟨h, v, hv, hvb⟩
            · exact .inl (.inr h)
            · exact .inr ⟨h, v, List.mem_cons.1 hv, hvb⟩
        · exact absurd (hpre u List.mem_cons_self hb) hc
    · obtain ⟨S, l', heq, huses, hreach⟩ := branchTail_append pc done pre rest l (n + 1)
      refine ⟨S, l', ?_, fun x hx => ?_, fun hpre => hreach fun v hv => hpre v (List.mem_cons_of_mem _ hv)⟩
      · rw [List.cons_append, branchTail_other (by simpa using hb), heq, hlen]
      · rcases huses x hx with h | ⟨h, v, hv, hvb⟩
        · exact .inl h
        · exact .inr ⟨h, v, List.mem_cons_of_mem _ hv, hvb⟩

end Tail

section Packet

variable {pc : BitVec 64} {h : HashOrder} {cof : Bool} {is : List Insn} {i : Insn} {n : Nat}

theorem reaches_untilTail (h : HashOrder) (pc : BitVec 64) (cof : Bool) (is : List Insn) :
    Reaches (fillBnInstructionLowLevelIl h pc cof is) 0 ((untilTail h pc cof is).emit Transfer 0).1.length := by
  have hat := At.self (fillBnInstructionLowLevelIl h pc cof is)
  conv at hat => rhs; rw [emit_untilTail]
  have hrun := Block.runs_emit (emitSem fun _ s => s) (nodup_marks_fillBn h cof is) (untilTail h pc cof is) 0 0
    ⟨fun _ => 0, fun _ _ => 0, fun _ => 0⟩ [] hat.left
  exact (Flow.Runs.reaches hrun).at rfl (Nat.zero_add _).symm

/-- The code of a packet that can change the flow, cut behind the first branches. -/
theorem fillBn_split (h : HashOrder) (pc : BitVec 64) (pre rest : List Insn) : ∃ (A : List EmitInstr) (done l : Nat),
    fillBnInstructionLowLevelIl h pc true (pre ++ rest) = A ++ branchTail pc done l pre.length rest ∧
      (∀ x ∈ uses A, x ∈ marks A ∨ x = done ∧ ∃ u ∈ pre, u.branches = true ∧ u.isJump = false) ∧
      ((∀ u ∈ pre, u.branches = true → u.isCondJump = true) →
        Reaches (fillBnInstructionLowLevelIl h pc true (pre ++ rest)) 0 A.length) := by
  have hcode := @emit_untilTail pc h true (pre ++ rest)
  have hbody := reaches_untilTail h pc true (pre ++ rest)
  have hn := @nodup_marks_fillBn pc h true (pre ++ rest)
  have huses := Block.uses_emit Transfer (untilTail h pc true (pre ++ rest)) 0
  generalize fillBnInstructionLowLevelIl h pc true (pre ++ rest) = code at hcode hbody hn ⊢
  generalize (untilTail h pc true (pre ++ rest)).emit Transfer 0 = body at hcode hbody huses
  obtain ⟨S, l', heq, hS, hreach⟩ := branchTail_append pc body.2 pre rest (body.2 + 1) 0
  rw [if_pos rfl, heq, Nat.zero_add] at hcode
  refine ⟨body.1 ++ S, body.2, l', by rw [hcode, List.append_assoc], fun x hx => ?_, fun hpre => ?_⟩
  · rw [Flow.uses_append] at hx
    rw [Flow.marks_append]
    rcases List.mem_append.1 hx with hx | hx
    · exact .inl (List.mem_append_left _ (huses x hx))
    · exact (hS x hx).imp (List.mem_append_right _) id
  · rw [hcode] at hbody hn ⊢
    exact hbody.trans (hreach hpre body.1 _ hn)

theorem getLast_label {code A : List EmitInstr} {done l n : Nat} {is : List Insn}
    (hcode : code = A ++ branchTail pc done l n is) :
    code[code.length - 1]? = some (.label done) ∧ 0 < code.length := by
  have hlast : code.getLast? = some (.label done) := by
    rw [hcode, List.getLast?_append, getLast_branchTail]
    rfl
  rw [← List.getLast?_eq_getElem?]
  refine ⟨hlast, List.length_pos_iff.2 fun hnil => ?_⟩
  rw [hnil] at hlast
  cases hlast

/-- **Behind an unconditional branch no path comes but to the end**, and to it only by a call. -/
theorem reaches_before {pre post : List Insn} {u : Insn} (hb : u.branches = true) (hc : u.isCondJump = false) {k : Nat}
    (hk : Reaches (fillBnInstructionLowLevelIl h pc true (pre ++ u :: post)) 0 k) :
      ∃ (A : List EmitInstr) (done l : Nat),
      fillBnInstructionLowLevelIl h pc true (pre ++ u :: post) = A ++ branchTail pc done l (pre.length + 1) post ∧
        (k < A.length ∨ (∃ v ∈ pre ++ [u], v.branches = true ∧ v.isJump = false) ∧
          (k = (fillBnInstructionLowLevelIl h pc true (pre ++ u :: post)).length - 1 ∨
            k = (fillBnInstructionLowLevelIl h pc true (pre ++ u :: post)).length)) := by
  obtain ⟨A, done, l, hcode, huses, -⟩ := fillBn_split h pc pre (u :: post)
  have hn := @nodup_marks_fillBn pc h true (pre ++ u :: post)
  obtain ⟨hlabel, hpos⟩ := getLast_label hcode
  generalize fillBnInstructionLowLevelIl h pc true (pre ++ u :: post) = code at hk hcode hn hlabel hpos ⊢
  rw [branchTail_uncond hb hc] at hcode
  obtain ⟨hctrl, hmarks, C, x, hcx, hstop⟩ := code_cases (u.control pc pre.length) done
  have hcut : code = (A ++ (u.control pc pre.length).code done) ++ (.label (l + 1) ::
      branchTail pc done (l + 2) (pre.length + 1) post) := by
    rw [hcode, List.append_assoc]
  refine ⟨A ++ (u.control pc pre.length).code done ++ [.label (l + 1)], done, l + 2, by
    rw [hcut]; simp only [List.append_assoc, List.cons_append, List.nil_append], ?_⟩
  have hwithin := Flow.Reaches.within (T := fun k => (∃ v ∈ pre ++ [u], v.branches = true ∧ v.isJump = false) ∧
      (k = code.length - 1 ∨ k = code.length)) (hcut ▸ hk) (.inl ?_) (fun i hi => ?_) (fun m hm j hj => ?_)
    (fun j hj j' hnext => ?_)
  · rcases hwithin with hlt | hend
    · exact .inl (by rw [List.length_append]; omega)
    · exact .inr hend
  · rw [hcx, List.length_append, List.length_append, List.length_singleton]
    omega
  · rw [hcx, ← List.append_assoc, List.getLast?_concat] at hi
    obtain rfl := Option.some.inj hi
    exact hstop
  · rw [← hcut] at hj
    rw [Flow.uses_append] at hm
    have hdone : m = done → j = code.length - 1 := fun hmd => by
      rw [hmd, Flow.find_eq hn hlabel] at hj
      exact (Option.some.inj hj).symm
    rcases List.mem_append.1 hm with hm | hm
    · rcases huses m hm with hmark | ⟨hmd, v, hv, hvb⟩
      · refine .inl (Flow.find_lt (hcut ▸ hn) ?_ (hcut ▸ hj))
        rw [Flow.marks_append]
        exact List.mem_append_left _ hmark
      · exact .inr ⟨⟨v, List.mem_append_left _ hv, hvb⟩, .inl (hdone hmd)⟩
    · obtain ⟨hmd, hcall⟩ := hctrl m hm
      exact .inr ⟨⟨u, by simp, hb, control_call.1 hcall⟩, .inl (hdone hmd)⟩
  · rw [← hcut] at hnext
    refine .inr ⟨hj.1, ?_⟩
    rcases hj.2 with rfl | rfl
    · simp only [Flow.Next, hlabel] at hnext
      omega
    · simp only [Flow.Next, List.getElem?_eq_none (Nat.le_refl _)] at hnext

/-- Where there is an unconditional branch, the first of them is live. -/
theorem exists_live {u : Insn} (hu : u ∈ is) (hb : u.branches = true) (hc : u.isCondJump = false) :
    ∃ v ∈ is, v.branches = true ∧ v.isCondJump = false ∧ LiveIn is v := by
  have hfound : (is.find? fun v => v.branches && !v.isCondJump).isSome = true :=
    List.find?_isSome.2 ⟨u, hu, by rw [hb, hc]; rfl⟩
  obtain ⟨v, hv⟩ := Option.isSome_iff_exists.1 hfound
  obtain ⟨hvb, pre, post, his, hpre⟩ := List.find?_eq_some_iff_append.1 hv
  simp only [Bool.and_eq_true, Bool.not_eq_true'] at hvb
  refine ⟨v, by rw [his]; simp, hvb.1, hvb.2, pre, post, his, fun w hw hbw => ?_⟩
  have := hpre w hw
  rw [hbw] at this
  simpa using this

theorem LiveIn.mem (h : LiveIn is i) : i ∈ is := by
  obtain ⟨pre, post, his, -⟩ := h
  rw [his]
  simp

/-- A transfer stands in front of the labels that end its branch and the packet. -/
theorem TransferAt.lt {code : List EmitInstr} {k : Nat} (ht : TransferAt pc code is n i k) : k + 3 ≤ code.length := by
  obtain ⟨hb, pre, post, A, done, l, -, -, hcode, rfl⟩ := ht
  obtain ⟨-, -, C, x, hcx, -⟩ := code_cases (i.control pc n) done
  have hpos : 0 < (branchTail pc done (l + 2) (n + 1) post).length := by
    cases hnil : branchTail pc done (l + 2) (n + 1) post with
    | nil =>
      have := @getLast_branchTail pc done post (l + 2) (n + 1)
      rw [hnil] at this
      cases this
    | cons x t => exact Nat.succ_pos _
  rw [hcode]
  cases hc : i.isCondJump with
  | true =>
    rw [branchTail_cond hb hc, hcx]
    simp only [List.length_append, List.length_cons, List.length_nil, if_true]
    omega
  | false =>
    rw [branchTail_uncond hb hc, hcx]
    simp only [List.length_append, List.length_cons, List.length_nil, Bool.false_eq_true, if_false]
    omega

/-- **A path leaves by a branch exactly when no unconditional one stands before it.** -/
theorem canLeave_iff (hcof : cof = false → ∀ j ∈ is, j.branches = false) :
    (∃ n, CanLeave pc (fillBnInstructionLowLevelIl h pc cof is) is n i) ↔ i.branches = true ∧ LiveIn is i := by
  have htrue : i ∈ is → i.branches = true → cof = true := fun hi hb => by
    cases cof with
    | true => rfl
    | false =>
      rw [hcof rfl i hi] at hb
      cases hb
  constructor
  · rintro ⟨n, k, ht, hk⟩
    have hlt := ht.lt
    obtain ⟨hb, pre, post, A, done, l, rfl, rfl, hcode, rfl⟩ := ht
    obtain rfl := htrue (by simp) hb
    refine ⟨hb, pre, post, rfl, fun u hu hub => ?_⟩
    by_contra hc
    -- the path to the transfer would have to pass the unconditional branch
    obtain ⟨first, second, rfl⟩ := List.append_of_mem hu
    rw [List.append_assoc, List.cons_append] at hk hcode hlt
    obtain ⟨B, done', l', hcode', hend⟩ := reaches_before hub (by simpa using hc) hk
    obtain ⟨S, l'', htail, -⟩ := branchTail_append pc done' second (i :: post) l' (first.length + 1)
    have hindex : first.length + 1 + second.length = (first ++ u :: second).length := by
      rw [List.length_append, List.length_cons]
      omega
    rw [htail, hindex, hcode] at hcode'
    generalize (first ++ u :: second).length = m at hcode'
    have hlen := congrArg List.length hcode'
    rw [List.length_append, List.length_append, List.length_append,
      length_branchTail done done' (i :: post) l l'' m] at hlen
    rcases hend with hk | ⟨-, hk | hk⟩ <;> omega
  · rintro ⟨hb, pre, post, rfl, hpre⟩
    obtain rfl := htrue (by simp) hb
    obtain ⟨A, done, l, hcode, -, hreach⟩ := fillBn_split h pc pre (i :: post)
    refine ⟨pre.length, _, ⟨hb, pre, post, A, done, l, rfl, rfl, hcode, rfl⟩, (hreach hpre).trans ?_⟩
    have hn := @nodup_marks_fillBn pc h true (pre ++ i :: post)
    generalize fillBnInstructionLowLevelIl h pc true (pre ++ i :: post) = code at hcode hn ⊢
    cases hc : i.isCondJump with
    | false => exact .refl
    | true =>
      rw [branchTail_cond hb hc] at hcode
      have htest : code[A.length]? = some (.branch (takenTest pre.length) l (l + 1)) := by
        rw [hcode]
        exact getElem?_mid A _ _
      have hlabel : code[A.length + 1]? = some (.label l) := by
        have hmid := getElem?_mid (A ++ [.branch (takenTest pre.length) l (l + 1)]) (.label l)
          ((i.control pc pre.length).code done ++ .label (l + 1) :: branchTail pc done (l + 2) (pre.length + 1) post)
        rw [hcode, ← hmid]
        simp only [List.append_assoc, List.cons_append, List.nil_append, List.length_append, List.length_cons,
          List.length_nil]
      exact .head (Flow.next_branch_true htest (Flow.find_eq hn hlabel)) (.single (Flow.next_label hlabel))

/-- A path that comes to the end past an unconditional branch has come to a call. -/
theorem live_call_of_reaches_end (hcof : cof = false → ∀ j ∈ is, j.branches = false) {u : Insn} (hu : u ∈ is)
    (hub : u.branches = true) (huc : u.isCondJump = false)
    (hend : Reaches (fillBnInstructionLowLevelIl h pc cof is) 0 (fillBnInstructionLowLevelIl h pc cof is).length) :
    ∃ i ∈ is, i.branches = true ∧ i.isJump = false ∧ LiveIn is i := by
  obtain ⟨v, -, hvb, hvc, pre, post, rfl, hcond⟩ := exists_live hu hub huc
  obtain rfl : cof = true := by
    cases cof with
    | true => rfl
    | false =>
      rw [hcof rfl v (by simp)] at hvb
      cases hvb
  obtain ⟨A, done, l, hcode, hk⟩ := reaches_before hvb hvc hend
  have hlen := congrArg List.length hcode
  rw [List.length_append] at hlen
  have hcall : ∃ w ∈ pre ++ [v], w.branches = true ∧ w.isJump = false := by
    rcases hk with hk | hk
    · omega
    · exact hk.1
  obtain ⟨w, hw, hwb, hwj⟩ := hcall
  rcases List.mem_append.1 hw with hw | hw
  · obtain ⟨first, second, rfl⟩ := List.append_of_mem hw
    exact ⟨w, by simp, hwb, hwj, first, second ++ v :: post, by
      simp, fun x hx => hcond x (List.mem_append_left _ hx)⟩
  · obtain rfl := List.mem_singleton.1 hw
    exact ⟨w, by simp, hwb, hwj, pre, post, rfl, hcond⟩

theorem reaches_end_of_cond (hall : ∀ u ∈ is, u.branches = true → u.isCondJump = true) :
    Reaches (fillBnInstructionLowLevelIl h pc cof is) 0 (fillBnInstructionLowLevelIl h pc cof is).length := by
  cases cof with
  | false =>
    have hcode := @emit_untilTail pc h false is
    rw [if_neg Bool.false_ne_true, List.append_nil] at hcode
    exact (reaches_untilTail h pc false is).at rfl (congrArg List.length hcode)
  | true =>
    obtain ⟨A, done, l, hcode, -, hreach⟩ := fillBn_split h pc is []
    rw [List.append_nil] at hcode hreach
    obtain ⟨hlabel, hpos⟩ := getLast_label hcode
    have hlen := congrArg List.length hcode
    rw [List.length_append, branchTail, List.length_singleton] at hlen
    refine (hreach hall).trans (.single ?_)
    generalize fillBnInstructionLowLevelIl h pc true is = code at hlabel hpos hlen ⊢
    rw [hlen, Nat.add_sub_cancel] at hlabel
    rw [hlen]
    exact Flow.next_label hlabel

/-- A call that can be come to is left for the last label. -/
theorem reaches_end_of_call (hcof : cof = false → ∀ j ∈ is, j.branches = false) {i : Insn} (hb : i.branches = true)
    (hj : i.isJump = false) (hlive : LiveIn is i) :
    Reaches (fillBnInstructionLowLevelIl h pc cof is) 0 (fillBnInstructionLowLevelIl h pc cof is).length := by
  obtain ⟨n, k, ht, hk⟩ := (@canLeave_iff pc h cof _ i hcof).2 ⟨hb, hlive⟩
  refine hk.trans ?_
  obtain ⟨-, pre, post, A, done, l, rfl, rfl, hcode, rfl⟩ := ht
  obtain ⟨d, hd⟩ := (@control_call pc i pre.length).2 hj
  have hn := @nodup_marks_fillBn pc h cof (pre ++ i :: post)
  obtain ⟨hlabel, hpos⟩ := getLast_label hcode
  generalize fillBnInstructionLowLevelIl h pc cof (pre ++ i :: post) = code at hcode hn hlabel hpos ⊢
  -- the call, and then the jump to the last label
  have hcall : ∃ B C, code = B ++ (.act (.call d) :: .goto done :: C) ∧
      A.length + (if i.isCondJump = true then 2 else 0) = B.length := by
    cases hc : i.isCondJump with
    | true =>
      rw [branchTail_cond hb hc, hd] at hcode
      refine ⟨A ++ [.branch (takenTest pre.length) l (l + 1), .label l],
        .label (l + 1) :: branchTail pc done (l + 2) (pre.length + 1) post, hcode.trans ?_, by simp⟩
      simp only [Control.code, List.append_assoc, List.cons_append, List.nil_append]
    | false =>
      rw [branchTail_uncond hb hc, hd] at hcode
      exact ⟨A, _, hcode, by simp⟩
  obtain ⟨B, C, hcode', hpos'⟩ := hcall
  have hact : code[B.length]? = some (.act (.call d)) := by
    rw [hcode']
    exact getElem?_mid B _ _
  have hgoto : code[B.length + 1]? = some (.goto done) := by
    have hmid := getElem?_mid (B ++ [.act (.call d)]) (.goto done) C
    rw [hcode', ← hmid]
    simp only [List.append_assoc, List.cons_append, List.nil_append, List.length_append, List.length_cons,
      List.length_nil]
  have hend := Flow.next_label hlabel
  rw [Nat.sub_add_cancel hpos] at hend
  rw [hpos']
  exact .head (Flow.next_act hact) (.head (Flow.next_goto hgoto (Flow.find_eq hn hlabel)) (.single hend))

/-- **A path comes to the packet behind** exactly when all branches are conditional, or by a call it can come to. -/
theorem reaches_end_iff (hcof : cof = false → ∀ j ∈ is, j.branches = false) :
    Reaches (fillBnInstructionLowLevelIl h pc cof is) 0 (fillBnInstructionLowLevelIl h pc cof is).length ↔
      (∀ u ∈ is, u.branches = true → u.isCondJump = true) ∨
        ∃ i ∈ is, i.branches = true ∧ i.isJump = false ∧ LiveIn is i := by
  constructor
  · intro hend
    by_cases hall : ∀ u ∈ is, u.branches = true → u.isCondJump = true
    · exact .inl hall
    · push Not at hall
      obtain ⟨u, hu, hub, huc⟩ := hall
      exact .inr (live_call_of_reaches_end hcof hu hub (by simpa using huc) hend)
  · rintro (hall | ⟨i, -, hb, hj, hlive⟩)
    · exact reaches_end_of_cond hall
    · exact reaches_end_of_call hcof hb hj hlive

end Packet
end Hex
