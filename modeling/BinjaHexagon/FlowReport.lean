import BinjaHexagon.BranchTarget
import BinjaHexagon.PreparedPacket
import BinjaHexagon.TailPaths
/-!
# FlowReport — the flow that is reported and the flow of the IL

`FillBnInstructionInfo` classifies the packet as it was decoded, `FillBnInstructionLowLevelIL` the packet as it was
prepared, each by its own reading of the attributes.  The two are compared branch by branch, and in what they say of the
packet behind, over the paths of the emitted code.
-/
namespace Hex

open Flow (Reaches)

/-- How the attributes of a row that say where it goes go together: a return is an indirect jump, or no branch at all
(`J2_rte`), and a system call is none. -/
structure FlowRow (o : OpcodeRow) : Prop where
  ret : o.attrib .bnReturn = true → o.attrib .bnSystem = false ∧ o.attrib .call = false ∧
    (o.attrib .jump = true → o.attrib .indirect = true)
  system : o.attrib .bnSystem = true → o.attrib .jump = false ∧ o.attrib .call = false

/-- A reported branch says what a transfer does: its kind, and its target if it is a direct one.  A direct jump is a
true branch where it is conditional, else a false one where there is such a jump to leave by as well. -/
def InfoBranch.Says (b : InfoBranch) (cond : Bool) (other : Prop) : Control → Prop
  | .jump (.constPointer _ t) => b.target = some t ∧ (match b.kind with
    | .trueBranch => cond = true
    | .falseBranch => cond = false ∧ other
    | .unconditionalBranch => cond = false ∧ ¬ other
    | _ => False)
  | .jump _ => b.kind = .indirectBranch
  | .ret _ => b.kind = .functionReturn
  | .call (.constPointer _ t) => b.kind = .callDestination ∧ b.target = some t
  | .call _ => False

section Report

variable (pc : BitVec 64) (size : Nat) (l is : List Insn)

/-- The branch an instruction adds for itself. -/
def Insn.ownBranch (i : Insn) : Option InfoBranch := (i.infoBranches pc size (hasCj l) (hasUcj l)).head?

/-- The packet behind is reported: as the else case of some instruction, or because nothing that is reported ends a
block. -/
def FallReported : Prop :=
  (∃ i ∈ l, (i.infoBranches pc size (hasCj l) (hasUcj l)).tail ≠ []) ∨
    ∀ i ∈ l, ∀ b ∈ i.ownBranch pc size l, b.kind = .callDestination ∨ b.kind = .systemCall

/-- The code can be left by a conditional direct jump. -/
def LeavesCond (code : List EmitInstr) : Prop :=
  ∃ n i, CanLeave pc code is n i ∧ i.isJump = true ∧ i.isIndirect = false ∧ i.isCondJump = true

/-- What is reported of the packet `l` agrees with the code emitted for the prepared packet `is`, path by path. -/
structure FlowAgrees (code : List EmitInstr) : Prop where
  /-- A direct transfer the code can leave by is reported, with its target and kind. -/
  direct : ∀ n i, CanLeave pc code is n i → i.isIndirect = false →
    i ∈ l ∧ ∃ b ∈ i.ownBranch pc size l, b.Says i.isCondJump (LeavesCond pc is code) (i.control pc n)
  /-- A branch that is reported is one the code can leave by. -/
  edges : ∀ i ∈ l, i.isSystem = false → ∀ b ∈ i.ownBranch pc size l,
    ∃ n, CanLeave pc code is n i ∧ b.Says i.isCondJump (LeavesCond pc is code) (i.control pc n)
  /-- The packet behind is reported exactly when the code can come to its end. -/
  falls : FallReported pc size l ↔ Reaches code 0 code.length

/-- An instruction that adds a branch for itself. -/
def Insn.isReported (i : Insn) : Bool :=
  if i.isJump then !(i.isIndirect && i.isCondJump) else i.isCall && !i.isIndirect

/-- The packets of which the report is right. -/
structure FlowShape : Prop where
  /-- No branch that is reported stands behind an unconditional one. -/
  live : ∀ i ∈ l, i.isReported = true → LiveIn is i
  /-- No `jumpr r31`, which is lifted to a return. -/
  notLr : ∀ i ∈ l, i.isJump = true → i.isIndirect = true → i.isCondJump = false → i.isReturn = false →
    ¬ (i.opcode.tag = .j2Jumpr ∧ i.reg 0 = hexRegLr)
  /-- No `rte`, which is reported as a return and lifted to nothing. -/
  notRte : ∀ i ∈ l, i.isReturn = true → i.isCondJump = false → i.isJump = true
  /-- With an unconditional jump, a call can come first exactly when there is a conditional direct jump and no
  unconditional one. -/
  falls : (∃ i ∈ l, i.isJump = true ∧ i.isCondJump = false) →
    ((∃ i ∈ l, i.isJump = false ∧ i.isCall = true ∧ LiveIn is i) ↔ hasCj l = true ∧ hasUcj l = false)

end Report

/-- The branches of the prepared packet are those of the packet. -/
def SameBranches (l is : List Insn) : Prop :=
  ∀ i, (i ∈ is ∧ i.branches = true) ↔ i ∈ l ∧ (i.isJump = true ∨ i.isCall = true)

section Own

variable {pc : BitVec 64} {size n : Nat} {l is : List Insn} {i : Insn} {b : InfoBranch}

theorem FlowRow.insn (h : FlowRow i.opcode.toOpcodeRow) :
    (i.isReturn = true → i.isSystem = false ∧ i.isCall = false ∧ (i.isJump = true → i.isIndirect = true)) ∧
      (i.isSystem = true → i.isJump = false ∧ i.isCall = false) := by
  refine ⟨fun hr => ?_, fun hs => ?_⟩
  · obtain ⟨hs, hc, hj⟩ := h.ret hr
    refine ⟨hs, hc, fun hjump => ?_⟩
    simp only [Insn.isJump, Bool.and_eq_true] at hjump
    simp only [Insn.isIndirect, Bool.and_eq_true]
    exact ⟨hj hjump.1, hjump.2⟩
  · obtain ⟨hj, hc⟩ := h.system hs
    exact ⟨by rw [Insn.isJump, Insn.attrib, hj, Bool.false_and], hc⟩

/-- A direct jump is neither a return nor a system call. -/
theorem FlowRow.direct (h : FlowRow i.opcode.toOpcodeRow) (hj : i.isJump = true) (hd : i.isIndirect = false) :
    i.isReturn = false ∧ i.isSystem = false := by
  constructor
  · cases hr : i.isReturn with
    | false => rfl
    | true =>
      rw [(h.insn.1 hr).2.2 hj] at hd
      cases hd
  · cases hs : i.isSystem with
    | false => rfl
    | true =>
      rw [(h.insn.2 hs).1] at hj
      cases hj

theorem ownBranch_eq : i.ownBranch pc size l =
    if i.isReturn then (if i.isCondJump then none else some ⟨.functionReturn, none⟩)
    else if i.isSystem then (if i.isCondJump then none else some ⟨.systemCall, none⟩)
    else if i.isJump then
      if i.isIndirect then (if i.isCondJump then none else some ⟨.indirectBranch, none⟩)
      else if i.isCondJump then some ⟨.trueBranch, some (i.target pc)⟩
      else some ⟨if hasCj l then .falseBranch else .unconditionalBranch, some (i.target pc)⟩
    else if i.isCall && !i.isIndirect then some ⟨.callDestination, some (i.target pc)⟩
    else none := by
  unfold Insn.ownBranch Insn.infoBranches
  cases i.isReturn <;> cases i.isSystem <;> cases i.isJump <;> cases i.isIndirect <;> cases i.isCondJump <;>
    cases i.isCall <;> rfl

theorem ownBranch_of_reported (h : FlowRow i.opcode.toOpcodeRow) (hr : i.isReported = true) :
    i.isSystem = false ∧ ∃ b, i.ownBranch pc size l = some b := by
  obtain ⟨hret, hsys⟩ := h.insn
  unfold Insn.isReported at hr
  rw [ownBranch_eq]
  cases hR : i.isReturn <;> cases hS : i.isSystem <;> cases hJ : i.isJump <;> cases hI : i.isIndirect <;>
    cases hC : i.isCondJump <;> cases hK : i.isCall <;> simp_all

/-- A branch that is added for an instruction itself is reported, a conditionless `rte` apart. -/
theorem reported_of_ownBranch (hS : i.isSystem = false)
    (hrte : i.isReturn = true → i.isCondJump = false → i.isJump = true) (hb : i.ownBranch pc size l = some b) :
    i.isReported = true := by
  rw [ownBranch_eq, hS] at hb
  rw [Insn.isReported]
  cases hJ : i.isJump with
  | true =>
    rw [if_pos rfl]
    cases hI : i.isIndirect with
    | false => rfl
    | true =>
      rw [hJ, hI] at hb
      cases hC : i.isCondJump with
      | false => rfl
      | true => rw [hC] at hb; cases hR : i.isReturn <;> rw [hR] at hb <;> cases hb
  | false =>
    rw [hJ] at hb
    cases hR : i.isReturn with
    | true =>
      rw [hR, if_pos rfl] at hb
      cases hC : i.isCondJump with
      | true => rw [hC] at hb; cases hb
      | false => rw [hrte hR hC] at hJ; cases hJ
    | false =>
      rw [hR] at hb
      simp only [Bool.false_eq_true, if_false] at hb ⊢
      split at hb
      · assumption
      · cases hb

theorem branches_of_reported (hr : i.isReported = true) : i.isJump = true ∨ i.isCall = true := by
  rw [Insn.isReported] at hr
  split at hr
  · exact .inl ‹_›
  · exact .inr ((Bool.and_eq_true _ _).mp hr).1

theorem reported_of_direct (hI : i.isIndirect = false) (hb : i.isJump = true ∨ i.isCall = true) :
    i.isReported = true := by
  rw [Insn.isReported, hI]
  rcases hb with hj | hc
  · rw [hj]; rfl
  · rw [hc]; cases i.isJump <;> rfl

/-- What is reported of a branch says what its transfer does, but for `jumpr r31`. -/
theorem says_iff {other : Prop} (h : FlowRow i.opcode.toOpcodeRow) (hb : i.isJump = true ∨ i.isCall = true)
    (hother : other ↔ hasCj l = true) (ho : i.ownBranch pc size l = some b) :
    b.Says i.isCondJump other (i.control pc n) ↔
      ¬ (i.isJump = true ∧ i.isIndirect = true ∧ i.isReturn = false ∧ i.opcode.tag = .j2Jumpr ∧
          i.reg 0 = hexRegLr) := by
  obtain ⟨hret, hsys⟩ := h.insn
  rw [ownBranch_eq] at ho
  unfold Insn.control
  cases hR : i.isReturn with
  | true =>
    obtain ⟨-, hcall, hind⟩ := hret hR
    have hjump : i.isJump = true := hb.resolve_right (by rw [hcall]; exact Bool.false_ne_true)
    rw [hR, if_pos rfl] at ho
    rw [hind hjump, hjump, Bool.true_and, if_pos rfl, Bool.true_or, if_pos rfl]
    cases hC : i.isCondJump with
    | true => rw [hC, if_pos rfl] at ho; cases ho
    | false =>
      rw [hC, if_neg Bool.false_ne_true] at ho
      cases ho
      simp [InfoBranch.Says]
  | false =>
    have hS : i.isSystem = false := by
      cases hS : i.isSystem with
      | false => rfl
      | true =>
        obtain ⟨hj, hc⟩ := hsys hS
        rcases hb with hb | hb
        · rw [hj] at hb; cases hb
        · rw [hc] at hb; cases hb
    rw [hR, hS] at ho
    simp only [Bool.false_eq_true, if_false, Bool.false_or] at ho ⊢
    cases hJ : i.isJump with
    | true =>
      rw [hJ] at ho
      cases hI : i.isIndirect with
      | true =>
        rw [hI] at ho
        cases hC : i.isCondJump with
        | true => rw [hC] at ho; cases ho
        | false =>
          rw [hC] at ho
          cases ho
          by_cases hlr : i.opcode.tag = .j2Jumpr ∧ i.reg 0 = hexRegLr
          · simp [hlr, InfoBranch.Says]
          · have hlr' : (i.opcode.tag == .j2Jumpr && i.reg 0 == hexRegLr) = false := by simpa using hlr
            rw [hlr']
            simp [hlr, InfoBranch.Says]
      | false =>
        rw [hI] at ho
        cases hC : i.isCondJump with
        | true =>
          rw [hC] at ho
          cases ho
          simp [InfoBranch.Says, Insn.target]
        | false =>
          rw [hC] at ho
          cases ho
          cases hcj : hasCj l <;> simp [InfoBranch.Says, Insn.target, hother, hcj]
    | false =>
      rw [hJ] at ho
      cases hI : i.isIndirect with
      | true => rw [hI, Bool.not_true, Bool.and_false] at ho; cases ho
      | false =>
        rw [hI, Bool.not_false, Bool.and_true, if_pos (hb.resolve_left (by rw [hJ]; exact Bool.false_ne_true))] at ho
        cases ho
        simp [InfoBranch.Says, Insn.target]

/-- `jumpr r31` is lifted to a return, which is not what is reported. -/
theorem not_says_lr {other : Prop} (h : FlowRow i.opcode.toOpcodeRow) (hj : i.isJump = true) (hI : i.isIndirect = true)
    (hC : i.isCondJump = false) (hR : i.isReturn = false) (hlr : i.opcode.tag = .j2Jumpr ∧ i.reg 0 = hexRegLr)
    (ho : i.ownBranch pc size l = some b) : ¬ b.Says i.isCondJump other (i.control pc n) := by
  have hS : i.isSystem = false := by
    cases hS : i.isSystem with
    | false => rfl
    | true =>
      rw [(h.insn.2 hS).1] at hj
      cases hj
  rw [ownBranch_eq, hR, hS, hj, hI, hC] at ho
  cases ho
  simp [Insn.control, hj, hI, hR, hlr, InfoBranch.Says]

/-- An else case is added exactly by the conditional direct jumps of a packet without an unconditional one. -/
theorem exists_else (hrows : ∀ i ∈ l, FlowRow i.opcode.toOpcodeRow) :
    (∃ i ∈ l, (i.infoBranches pc size (hasCj l) (hasUcj l)).tail ≠ []) ↔ hasCj l = true ∧ hasUcj l = false := by
  have htail : ∀ i ∈ l, (i.infoBranches pc size (hasCj l) (hasUcj l)).tail ≠ [] ↔
      (i.isJump && !i.isIndirect && i.isCondJump) = true ∧ hasUcj l = false := by
    intro i hi
    unfold Insn.infoBranches
    cases hJ : i.isJump with
    | false => cases i.isReturn <;> cases i.isSystem <;> cases i.isCondJump <;> cases i.isCall <;>
        cases i.isIndirect <;> simp
    | true =>
      cases hI : i.isIndirect with
      | true => cases i.isReturn <;> cases i.isSystem <;> cases i.isCondJump <;> simp
      | false =>
        obtain ⟨hR, hS⟩ := (hrows i hi).direct hJ hI
        rw [hR, hS]
        cases i.isCondJump <;> cases hasUcj l <;> simp
  constructor
  · rintro ⟨i, hi, ht⟩
    obtain ⟨hcj, hucj⟩ := (htail i hi).1 ht
    exact ⟨List.any_eq_true.2 ⟨i, hi, hcj⟩, hucj⟩
  · rintro ⟨hcj, hucj⟩
    obtain ⟨i, hi, h⟩ := List.any_eq_true.1 hcj
    exact ⟨i, hi, (htail i hi).2 ⟨h, hucj⟩⟩

end Own

section Agree

variable {pc : BitVec 64} {size : Nat} {l is : List Insn}

/-- With an unconditional jump, the end is come to by a call. -/
theorem exists_call_iff (hsame : SameBranches l is) (hu : ∃ i ∈ l, i.isJump = true ∧ i.isCondJump = false) :
    ((∀ u ∈ is, u.branches = true → u.isCondJump = true) ∨ ∃ i ∈ is, i.branches = true ∧ i.isJump = false ∧
      LiveIn is i) ↔ ∃ i ∈ l, i.isJump = false ∧ i.isCall = true ∧ LiveIn is i := by
  constructor
  · rintro (hall | ⟨i, hi, hb, hj, hlive⟩)
    · obtain ⟨u, hul, hj, hc⟩ := hu
      obtain ⟨his, hb⟩ := (hsame u).2 ⟨hul, .inl hj⟩
      rw [hall u his hb] at hc
      cases hc
    · obtain ⟨hil, hbranch⟩ := (hsame i).1 ⟨hi, hb⟩
      exact ⟨i, hil, hj, hbranch.resolve_left (by rw [hj]; exact Bool.false_ne_true), hlive⟩
  · rintro ⟨i, hil, hj, hc, hlive⟩
    obtain ⟨his, hb⟩ := (hsame i).2 ⟨hil, .inr hc⟩
    exact .inr ⟨i, his, hb, hj, hlive⟩

theorem fallReported_iff (hrows : ∀ i ∈ l, FlowRow i.opcode.toOpcodeRow)
    (hu : ∃ i ∈ l, i.isJump = true ∧ i.isCondJump = false) :
    FallReported pc size l ↔ hasCj l = true ∧ hasUcj l = false := by
  unfold FallReported
  rw [exists_else hrows, or_iff_left_iff_imp]
  intro h
  obtain ⟨u, hul, hj, hc⟩ := hu
  obtain ⟨-, b, hb⟩ := @ownBranch_of_reported pc size l _ (hrows u hul)
    (show u.isReported = true by rw [Insn.isReported, hj, hc]; simp)
  have hkind := h u hul b hb
  obtain ⟨hret, hsys⟩ := (hrows u hul).insn
  rw [ownBranch_eq, hj, hc] at hb
  have hS : u.isSystem = false := by
    cases hS : u.isSystem with
    | false => rfl
    | true => rw [(hsys hS).1] at hj; cases hj
  rw [hS] at hb
  cases hR : u.isReturn <;> cases hI : u.isIndirect <;> rw [hR, hI] at hb <;> cases hb <;> simp at hkind
  · split at hkind <;> simp at hkind

/-- Without an unconditional jump the packet behind is reported, and the IL can come to it. -/
theorem falls_of_no_jump (hrows : ∀ i ∈ l, FlowRow i.opcode.toOpcodeRow) (hsame : SameBranches l is)
    (hrte : ∀ i ∈ l, i.isReturn = true → i.isCondJump = false → i.isJump = true)
    (hu : ¬ ∃ i ∈ l, i.isJump = true ∧ i.isCondJump = false) :
    FallReported pc size l ∧ ((∀ u ∈ is, u.branches = true → u.isCondJump = true) ∨
      ∃ i ∈ is, i.branches = true ∧ i.isJump = false ∧ LiveIn is i) := by
  have hcond : ∀ i ∈ l, i.isJump = true → i.isCondJump = true := fun i hi hj => by
    cases hc : i.isCondJump with
    | true => rfl
    | false => exact absurd ⟨i, hi, hj, hc⟩ hu
  constructor
  · by_cases hcj : hasCj l = true
    · refine .inl ((exists_else hrows).2 ⟨hcj, ?_⟩)
      cases hucj : hasUcj l with
      | false => rfl
      | true =>
        obtain ⟨i, hi, h⟩ := List.any_eq_true.1 hucj
        simp only [Bool.and_eq_true, Bool.not_eq_true'] at h
        rw [hcond i hi h.1.1] at h
        cases h.2
    · refine .inr fun i hi b hb => ?_
      have hindirect : i.isJump = true → i.isIndirect = true := fun hj => by
        cases hI : i.isIndirect with
        | true => rfl
        | false => exact absurd (List.any_eq_true.2 ⟨i, hi, by rw [hj, hI, hcond i hi hj]; rfl⟩) hcj
      rw [Option.mem_def, ownBranch_eq] at hb
      split at hb
      · rename_i hR
        split at hb
        · cases hb
        · rename_i hC
          exact absurd (hcond i hi (hrte i hi hR (by simpa using hC))) hC
      · split at hb
        · split at hb
          · cases hb
          · cases hb
            exact .inr rfl
        · split at hb
          · rename_i hJ
            rw [hindirect hJ, hcond i hi hJ] at hb
            cases hb
          · split at hb
            · cases hb
              exact .inl rfl
            · cases hb
  · by_cases hall : ∀ u ∈ is, u.branches = true → u.isCondJump = true
    · exact .inl hall
    · right
      push Not at hall
      obtain ⟨u, hus, hub, huc⟩ := hall
      obtain ⟨v, hvs, hvb, hvc, hlive⟩ := exists_live hus hub (by simpa using huc)
      obtain ⟨hvl, hbranch⟩ := (hsame v).1 ⟨hvs, hvb⟩
      refine ⟨v, hvs, hvb, ?_, hlive⟩
      cases hj : v.isJump with
      | false => rfl
      | true => exact absurd ⟨v, hvl, hj, hvc⟩ hu

/-- A conditional direct jump is reported, so that it can be left by. -/
theorem leavesCond_iff {code : List EmitInstr} (hsame : SameBranches l is)
    (hleave : ∀ i, (∃ n, CanLeave pc code is n i) ↔ i.branches = true ∧ LiveIn is i)
    (hlive : ∀ i ∈ l, i.isReported = true → LiveIn is i) : LeavesCond pc is code ↔ hasCj l = true := by
  constructor
  · rintro ⟨n, i, hn, hj, hI, hC⟩
    obtain ⟨hbr, hlive⟩ := (hleave i).1 ⟨n, hn⟩
    exact List.any_eq_true.2 ⟨i, ((hsame i).1 ⟨hlive.mem, hbr⟩).1, by rw [hj, hI, hC]; rfl⟩
  · intro hcj
    obtain ⟨i, hi, hi'⟩ := List.any_eq_true.1 hcj
    simp only [Bool.and_eq_true, Bool.not_eq_true'] at hi'
    obtain ⟨⟨hj, hI⟩, hC⟩ := hi'
    obtain ⟨-, hbr⟩ := (hsame i).2 ⟨hi, .inl hj⟩
    obtain ⟨n, hn⟩ := (hleave i).2 ⟨hbr, hlive i hi (reported_of_direct hI (.inl hj))⟩
    exact ⟨n, i, hn, hj, hI, hC⟩

theorem flowAgrees_of_shape {code : List EmitInstr} (hrows : ∀ i ∈ l, FlowRow i.opcode.toOpcodeRow)
    (hsame : SameBranches l is)
    (hleave : ∀ i, (∃ n, CanLeave pc code is n i) ↔ i.branches = true ∧ LiveIn is i)
    (hend : Reaches code 0 code.length ↔ (∀ u ∈ is, u.branches = true → u.isCondJump = true) ∨
      ∃ i ∈ is, i.branches = true ∧ i.isJump = false ∧ LiveIn is i) :
    FlowAgrees pc size l is code ↔ FlowShape l is := by
  constructor
  · intro h
    refine ⟨fun i hi hr => ?_, fun i hi hj hI hC hR hlr => ?_, fun i hi hR hC => ?_, fun hu => ?_⟩
    · obtain ⟨hS, b, hb⟩ := @ownBranch_of_reported pc size l _ (hrows i hi) hr
      obtain ⟨n, hn, -⟩ := h.edges i hi hS b hb
      exact ((hleave i).1 ⟨n, hn⟩).2
    · obtain ⟨hS, b, hb⟩ := @ownBranch_of_reported pc size l _ (hrows i hi)
        (show i.isReported = true by rw [Insn.isReported, hj, hI, hC]; rfl)
      obtain ⟨n, -, hsays⟩ := h.edges i hi hS b hb
      exact not_says_lr (hrows i hi) hj hI hC hR hlr hb hsays
    · obtain ⟨hS, hcall, -⟩ := (hrows i hi).insn.1 hR
      have hb : i.ownBranch pc size l = some ⟨.functionReturn, none⟩ := by
        rw [ownBranch_eq, if_pos hR, if_neg (by rw [hC]; exact Bool.false_ne_true)]
      obtain ⟨n, hn, -⟩ := h.edges i hi hS _ hb
      obtain ⟨hbr, hlive⟩ := (hleave i).1 ⟨n, hn⟩
      exact ((hsame i).1 ⟨hlive.mem, hbr⟩).2.resolve_right (by rw [hcall]; exact Bool.false_ne_true)
    · rw [← @exists_call_iff _ _ hsame hu, ← hend, ← h.falls, fallReported_iff hrows hu]
  · intro h
    have hother : LeavesCond pc is code ↔ hasCj l = true := leavesCond_iff hsame hleave h.live
    refine ⟨fun n i hn hI => ?_, fun i hi hS b hb => ?_, ?_⟩
    · obtain ⟨hbr, hlive⟩ := (hleave i).1 ⟨n, hn⟩
      obtain ⟨hil, hbranch⟩ := (hsame i).1 ⟨hlive.mem, hbr⟩
      obtain ⟨-, b, hb⟩ := @ownBranch_of_reported pc size l _ (hrows i hil) (reported_of_direct hI hbranch)
      refine ⟨hil, b, hb, (says_iff (hrows i hil) hbranch hother hb).2 fun hlr => ?_⟩
      rw [hlr.2.1] at hI
      cases hI
    · have hr : i.isReported = true := reported_of_ownBranch hS (h.notRte i hi) hb
      have hbranch := branches_of_reported hr
      obtain ⟨his, hbr⟩ := (hsame i).2 ⟨hi, hbranch⟩
      obtain ⟨n, hn⟩ := (hleave i).2 ⟨hbr, h.live i hi hr⟩
      refine ⟨n, hn, (says_iff (hrows i hi) hbranch hother hb).2 fun hlr => ?_⟩
      have hC : i.isCondJump = false := by
        rw [Insn.isReported, hlr.1, hlr.2.1] at hr
        simpa using hr
      exact h.notLr i hi hlr.1 hlr.2.1 hC hlr.2.2.1 hlr.2.2.2
    · rw [hend]
      by_cases hu : ∃ i ∈ l, i.isJump = true ∧ i.isCondJump = false
      · rw [fallReported_iff hrows hu, exists_call_iff hsame hu, h.falls hu]
      · obtain ⟨hfall, hexit⟩ := @falls_of_no_jump pc size _ _ hrows hsame h.notRte hu
        exact ⟨fun _ => hexit, fun _ => hfall⟩

end Agree

section Decoded

variable {bare : Bool} {core c halves rest : List Insn}

theorem sameBranches (h : Arranged bare core c) (hr : Rearranged (core ++ c) halves rest) :
    SameBranches (core ++ c) (halves ++ rest) := fun i => by
  have hpart : ∀ {j : Insn}, j.branches = true ↔ j.part1 = false ∧ (j.isJump = true ∨ j.isCall = true) := by
    simp [Insn.branches]
  constructor
  · rintro ⟨hi, hb⟩
    obtain ⟨hp, hbranch⟩ := hpart.1 hb
    rcases List.mem_append.1 hi with hi | hi
    · obtain ⟨j, -, rfl⟩ := List.mem_map.1 (hr.halves_perm.mem_iff.1 hi)
      cases hp
    · exact ⟨List.mem_of_mem_filter (hr.rest_perm.mem_iff.1 hi), hbranch⟩
  · rintro ⟨hi, hbranch⟩
    refine ⟨List.mem_append_right _ (hr.rest_perm.mem_iff.2 (List.mem_filter.2 ⟨hi, ?_⟩)),
      hpart.2 ⟨h.part1 i hi, hbranch⟩⟩
    cases he : i.isExtender with
    | false => rfl
    | true =>
      rcases hbranch with hj | hc
      · rw [Insn.isJump, Insn.extender_lacks he (by decide)] at hj
        cases hj
      · rw [Insn.isCall, Insn.extender_lacks he (by decide)] at hc
        cases hc

/-- A packet of `DecodePacket`, as one to be lifted. -/
def Arranged.decoded (h : Arranged bare core c) : Decoded where
  insn := core ++ c
  part1 := h.part1
  endloop i hi := by
    rcases h.loop with rfl | ⟨e, rfl, -⟩
    · rw [List.append_nil] at hi
      exact h.noLoop i (List.mem_of_mem_dropLast hi)
    · rw [List.dropLast_concat] at hi
      exact h.noLoop i hi

end Decoded

/-- **The flow reported of a packet is the flow of its IL**, over the paths of the code, exactly when no reported
branch is dead, no return is a `jumpr r31` or an `rte`, and the packet behind is not promised or kept back by
mistake. -/
theorem flow_report_iff (T : DecodeTables) (words : List (BitVec 32)) (p : Packet)
    (h : (decodePacket T words).outcome = .packet p)
    (hfit : p.insn.countP (fun i => !i.isExtender) + p.insn.countP (·.attrib .newcmpjump) ≤ instructionsMax)
    (hrows : ∀ i ∈ p.insn, FlowRow i.opcode.toOpcodeRow) (pc : BitVec 64) (g : HashOrder) :
    ∃ is, preparePacketForLifting p.insn = some is ∧
      (FlowAgrees pc p.encodPktSizeInBytes p.insn is (fillBnInstructionLowLevelIl g pc (hasCof p.insn) is) ↔
        FlowShape p.insn is) := by
  obtain ⟨core, c, hl, harr⟩ := decodePacket_arranged h
  rw [hl] at hfit hrows ⊢
  obtain ⟨halves, rest, hprep, hr, -⟩ := preparePacket_core harr hfit
  have hcof : hasCof (core ++ c) = false → ∀ j ∈ halves ++ rest, j.branches = false := fun hcof =>
    branches_of_hasCof (show preparePacketForLifting harr.decoded.insn = some _ from hprep) hcof
  exact ⟨halves ++ rest, hprep, flowAgrees_of_shape hrows (sameBranches harr hr) (fun i => canLeave_iff hcof)
    (reaches_end_iff hcof)⟩

theorem jumpCall_fits : ∀ d ∈ Opcodes.j2Jumpt.regs.zipIdx, [0].getD d.2 0 < d.1.limit := by
  decide

theorem call_fits : ∀ d ∈ Opcodes.j2Call.regs.zipIdx, ([] : List Nat).getD d.2 0 < d.1.limit := by
  decide

/-- `if (p0) jump #8` and `call #64`. -/
def jumpCallTables : DecodeTables :=
  wordTables [(0x5c000004, Opcodes.j2Jumpt.insn [0] [8] jumpCall_fits),
    (0x5a000020, Opcodes.j2Call.insn [] [64] call_fits)]

/-- `{ if (p0) jump #8; call #64 }`: either comes first, and the call comes back. -/
theorem flow_report_jumpCall : FlowAgrees 0x1000 8 jumpCall.insn jumpCall.insn
    (fillBnInstructionLowLevelIl .added 0x1000 true jumpCall.insn) := by
  obtain ⟨is, hprep, hiff⟩ := flow_report_iff jumpCallTables [0x5c004004, 0x5a00c020] ⟨jumpCall.insn, true, 8⟩ rfl
    (by decide +kernel)
    (fun i hi => by
      rcases List.mem_cons.1 hi with rfl | hi
      · exact ⟨by decide, by decide⟩
      · obtain rfl := List.mem_singleton.1 hi
        exact ⟨by decide, by decide⟩) 0x1000 .added
  obtain rfl : is = jumpCall.insn := Option.some.inj (hprep.symm.trans rfl)
  refine hiff.2 ⟨fun i hi _ => ?_, fun i hi hj hI => ?_, fun i hi hR => ?_, fun ⟨i, hi, hj, hc⟩ => ?_⟩
  · rcases List.mem_cons.1 hi with rfl | hi
    · exact ⟨[], _, rfl, fun _ h => absurd h List.not_mem_nil⟩
    · obtain rfl := List.mem_singleton.1 hi
      refine ⟨[_], [], rfl, fun u hu _ => ?_⟩
      obtain rfl := List.mem_singleton.1 hu
      rfl
  · rcases List.mem_cons.1 hi with rfl | hi
    · cases hI
    · obtain rfl := List.mem_singleton.1 hi
      cases hI
  · rcases List.mem_cons.1 hi with rfl | hi
    · cases hR
    · obtain rfl := List.mem_singleton.1 hi
      cases hR
  · rcases List.mem_cons.1 hi with rfl | hi
    · cases hc
    · obtain rfl := List.mem_singleton.1 hi
      cases hj

end Hex
