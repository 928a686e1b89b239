import BinjaHexagon.BranchRun
/-!
# ProgramRun — the emitted IL of one packet after another

A program gives the prepared packet at an address.  A step runs the packet's IL until it halts and goes on where the IL
leaves it: at the destination of a jump or return, or behind the packet.
-/
namespace Hex

open Flow (Halts)

/-- A packet as it is lifted, and its length in bytes. -/
structure PacketAt where
  decoded : Decoded
  insns : List Insn
  prepared : preparePacketForLifting decoded.insn = some insns
  size : Nat

abbrev Program := BitVec 32 → Option PacketAt

structure ProgState where
  addr : BitVec 32
  st : PhysState

namespace PacketAt

variable (p : PacketAt) (h : HashOrder) (callee : BitVec 64 → PhysState → PhysState) (a : ProgState)

def cof : Bool := hasCof p.decoded.insn

def code (addr : BitVec 32) : List EmitInstr :=
  fillBnInstructionLowLevelIl h (addr.setWidth 64) p.cof p.insns

/-- Where control goes from the end of a run. -/
def leave (addr : BitVec 32) (fin : EmitCfg) : BitVec 32 :=
  match (p.code h addr)[fin.pc]? with
  | some (.exit (.jump d)) | some (.exit (.ret d)) => (d.eval fin.st).setWidth 32
  | _ => addr + BitVec.ofNat 32 p.size

/-- An instruction reached its branch. -/
def due (n : Nat) : Bool :=
  reachedBranch ((insnLogs (liftInsns (a.addr.setWidth 64) 0 p.insns .empty)
    (execAll (initFlags p.cof p.insns) a.st)).getD n [])

/-- The transfer the packet leaves by. -/
def control : Option Control :=
  (firstDue (p.due a) 0 p.insns).map fun w => w.2.control (a.addr.setWidth 64) w.1

/-- The state with the clobbered registers written back. -/
def written : PhysState :=
  packetState h (a.addr.setWidth 64) p.insns (execAll (initFlags p.cof p.insns) a.st)

/-- What the packet's IL amounts to. -/
def next : ProgState where
  addr := match p.control a with
    | some (.jump d) | some (.ret d) => (d.eval (p.written h a)).setWidth 32
    | _ => a.addr + BitVec.ofNat 32 p.size
  st := Control.state callee (p.written h a) (p.control a)

theorem resolves : ResolvesBranches h (a.addr.setWidth 64) callee p.cof p.insns a.st := by
  unfold cof
  cases hcof : hasCof p.decoded.insn with
  | false => exact resolves_of_no_branch h callee p.insns a.st (branches_of_hasCof p.prepared hcof)
  | true => exact resolves_of_cof h callee p.insns a.st ((length_preparePacket p.prepared).trans (by decide))

end PacketAt

/-- One packet. -/
def ProgStep (h : HashOrder) (callee : BitVec 64 → PhysState → PhysState) (prog : Program) (a b : ProgState) : Prop :=
  ∃ p fin, prog a.addr = some p ∧ Halts (emitSem callee) (p.code h a.addr) ⟨0, a.st, []⟩ fin ∧
    b = ⟨p.leave h a.addr fin, fin.st⟩

variable {h : HashOrder} {callee : BitVec 64 → PhysState → PhysState} {prog : Program} {a b : ProgState}

/-- **A step is the packet's `next`**: its IL halts, in one way. -/
theorem progStep_iff : ProgStep h callee prog a b ↔ ∃ p, prog a.addr = some p ∧ b = p.next h callee a := by
  have hnext : ∀ (p : PacketAt) fin, Halts (emitSem callee) (p.code h a.addr) ⟨0, a.st, []⟩ fin →
      (⟨p.leave h a.addr fin, fin.st⟩ : ProgState) = p.next h callee a := fun p fin hfin => by
    obtain ⟨fin', -, -, -, hfin', -, -, -, -, hst, hends⟩ := p.resolves h callee a
    obtain rfl := hfin.unique hfin'
    have hst' : fin.st = Control.state callee (p.written h a) (p.control a) := hst
    have hends' : Control.Ends (p.code h a.addr) fin.pc (p.control a) := hends
    unfold PacketAt.next PacketAt.leave
    rw [hst']
    revert hends'
    cases hc : p.control a with
    | none =>
      intro hends'
      rw [show fin.pc = (p.code h a.addr).length from hends', List.getElem?_eq_none (Nat.le_refl _)]
    | some c =>
      cases c with
      | jump d | ret d =>
        intro hends'
        rw [show (p.code h a.addr)[fin.pc]? = _ from hends']
        rfl
      | call d =>
        intro hends'
        rw [show fin.pc = (p.code h a.addr).length from hends', List.getElem?_eq_none (Nat.le_refl _)]
  constructor
  · rintro ⟨p, fin, hp, hfin, rfl⟩
    exact ⟨p, hp, hnext p fin hfin⟩
  · rintro ⟨p, hp, rfl⟩
    obtain ⟨fin, -, -, -, hfin, -⟩ := p.resolves h callee a
    exact ⟨p, fin, hp, hfin, (hnext p fin hfin).symm⟩

theorem insnLogs_append : ∀ (ls ms : List Lifted) (s : PhysState),
    insnLogs (ls ++ ms) s = insnLogs ls s ++ insnLogs ms ((packetBody ls).run bodySem s)
  | [], _, _ => rfl
  | l :: ls, ms, s => by
    rw [List.cons_append, insnLogs, insnLogs_append ls ms, insnLogs, run_packetBody_cons, List.cons_append]

theorem length_insnLogs : ∀ (ls : List Lifted) (s : PhysState), (insnLogs ls s).length = ls.length
  | [], _ => rfl
  | _ :: ls, _ => congrArg (· + 1) (length_insnLogs ls _)

theorem length_liftInsns {pc : BitVec 64} : ∀ (is : List Insn) (n : Nat) (ctx : PacketContext),
    (liftInsns pc n is ctx).length = is.length
  | [], _, _ => rfl
  | _ :: is, n, _ => congrArg (· + 1) (length_liftInsns is (n + 1) _)

theorem firstDue_append {due : Nat → Bool} : ∀ (is js : List Insn) (n : Nat),
    firstDue due n (is ++ js) = (firstDue due n is).or (firstDue due (n + is.length) js)
  | [], _, _ => rfl
  | i :: is, js, n => by
    rw [List.cons_append, firstDue, firstDue]
    split
    · rfl
    · rw [firstDue_append is js, List.length_cons, Nat.add_assoc, Nat.add_comm 1]

end Hex
