import BinjaHexagon.Allotment
import BinjaHexagon.DecodeInsns
import BinjaHexagon.PacketTiles
import BinjaHexagon.SlotNumber
import Mathlib.Data.Fintype.Defs
/-!
# HvxResources — `decode_populate_cvi_resources`

The vector instructions of a packet share out the units of the vector extension, kind after kind.  `hvx_resource` is
what is written down for an instruction, which is not always what it was given.
-/
namespace Hex

open Allotment (Stage wants requests allot pick)

/-- The attributes of the vector extension that nothing before asks for. -/
inductive HvxAttrib where
  | cvi4slot | cviVp | cviVm | cviVpVs | cviVs | cviVxDv | cviVsVx | cviVx | cviVaDv | cviVa
  deriving Repr, DecidableEq

/-- The rest of the rows of `opcode_attribs`. -/
structure HvxTables where
  attribs : Tag → List HvxAttrib

/-- `HVXResource`. -/
inductive HvxResource where
  | load | store | perm | shift | mpy0 | mpy1 | zr | zw
  deriving Repr, DecidableEq

instance : Fintype HvxResource where
  elems := {.load, .store, .perm, .shift, .mpy0, .mpy1, .zr, .zw}
  complete x := by cases x <;> decide

/-- Resources that would do for an instruction, and those `hvx_resource` gets when they are taken. -/
structure HvxChoice where
  uses : Finset HvxResource
  marks : Finset HvxResource
  deriving DecidableEq

/-- Taken as they are written down. -/
def HvxChoice.plain (r : Finset HvxResource) : HvxChoice := ⟨r, r⟩

/-- A `check_` function: the instructions it looks for, and what it tries for each, in its order. -/
structure HvxCheck where
  takes : Insn → Bool
  choices : Insn → List HvxChoice

/-- An entry of `ilist`; it is set to -1 when it is served. -/
structure HvxEntry where
  insn : Insn
  waits : Bool
  hvxResource : Finset HvxResource

section Checks

variable (S : HvxTables)

/-- `GET_ATTRIB`, for these attributes. -/
def HvxTables.has (a : HvxAttrib) (i : Insn) : Bool := (S.attribs i.opcode.tag).contains a

/-- `check_dv_instruction`. -/
def checkDvInstruction (a : HvxAttrib) (resource0 resource1 : HvxResource) : HvxCheck :=
  ⟨S.has a, fun _ => [.plain {resource0, resource1}]⟩

/-- `check_dv_instruction2`; the second pair is written down as the first. -/
def checkDvInstruction2 (a : HvxAttrib) (resource0 resource1 resource2 resource3 : HvxResource) : HvxCheck :=
  ⟨S.has a, fun _ => [.plain {resource0, resource1}, ⟨{resource2, resource3}, {resource0, resource1}⟩]⟩

/-- `check_umem_instruction`. -/
def checkUmemInstruction : HvxCheck :=
  ⟨fun i => S.has .cviVp i && S.has .cviVm i, fun _ => [.plain {.load, .store, .perm}]⟩

/-- The memory resource, and behind it one of the others, unless for a temporary load or a `.new` store. -/
def memChoices (i : Insn) (port : HvxResource) : List HvxChoice :=
  if !(i.attrib .cviTmp && i.attrib .load) && !(i.attrib .cviNew && i.attrib .store) then
    [.plain {port, .perm}, .plain {port, .shift}, .plain {port, .mpy0}, .plain {port, .mpy1}]
  else [.plain {port}]

/-- `check_mem_instruction`. -/
def checkMemInstruction : HvxCheck where
  takes := S.has .cviVm
  choices i :=
    if i.attrib .load then memChoices i .load
    else if i.attrib .store then memChoices i .store
    else []

/-- `check_instruction1`. -/
def checkInstruction1 (a : HvxAttrib) (resource0 : HvxResource) : HvxCheck := ⟨S.has a, fun _ => [.plain {resource0}]⟩

/-- `check_instruction2`. -/
def checkInstruction2 (a : HvxAttrib) (resource0 resource1 : HvxResource) : HvxCheck :=
  ⟨S.has a, fun _ => [.plain {resource0}, .plain {resource1}]⟩

/-- `check_instruction4`. -/
def checkInstruction4 (a : HvxAttrib) (resource0 resource1 resource2 resource3 : HvxResource) : HvxCheck :=
  ⟨S.has a, fun _ => [.plain {resource0}, .plain {resource1}, .plain {resource2}, .plain {resource3}]⟩

/-- `check_4res_instruction`. -/
def check4resInstruction : HvxCheck := ⟨S.has .cvi4slot, fun _ => [.plain {.perm, .shift, .mpy0, .mpy1}]⟩

/-- The checks of `decode_populate_cvi_resources`, in its order. -/
def populateChecks : List HvxCheck :=
  [check4resInstruction S, checkUmemInstruction S, checkDvInstruction S .cviVpVs .shift .perm,
    checkInstruction1 S .cviVp .perm, checkInstruction1 S .cviVs .shift, checkDvInstruction S .cviVxDv .mpy0 .mpy1,
    checkDvInstruction2 S .cviVsVx .shift .mpy0 .perm .mpy1, checkInstruction2 S .cviVx .mpy0 .mpy1,
    checkDvInstruction2 S .cviVaDv .shift .perm .mpy0 .mpy1, checkMemInstruction S,
    checkInstruction4 S .cviVa .shift .perm .mpy0 .mpy1]

end Checks

namespace HvxCheck

/-- The first choice whose resources are all `FREE`. -/
def grab (p : HvxCheck) (used : Finset HvxResource) (i : Insn) : Option HvxChoice :=
  (p.choices i).find? fun c => decide (Disjoint used c.uses)

/-- The loop over `ilist`; `used` holds the resources that are not `FREE`. -/
def loop (p : HvxCheck) : Finset HvxResource → List HvxEntry → Option (Finset HvxResource × List HvxEntry)
  | used, [] => some (used, [])
  | used, e :: l =>
    if e.waits && p.takes e.insn then do
      let c ← p.grab used e.insn
      let r ← p.loop (used ∪ c.uses) l
      some (r.1, ⟨e.insn, false, e.hvxResource ∪ c.marks⟩ :: r.2)
    else do
      let r ← p.loop used l
      some (r.1, e :: r.2)

end HvxCheck

/-- The checks one after another. -/
def runChecks : List HvxCheck → Finset HvxResource → List HvxEntry → Option (List HvxEntry)
  | [], _, l => some l
  | p :: ps, used, l => do
    let r ← p.loop used l
    runChecks ps r.1 r.2

/-- How `decode_populate_cvi_resources` ends: `vlist` has four places, and an `ASSERT_AND_ABORT` can fail. -/
inductive CviOutcome where
  | outOfBounds
  | aborted
  | populated (l : List HvxEntry)

/-- `decode_populate_cvi_resources`, as far as the vector instructions of the packet go. -/
def decodePopulateCviResources (S : HvxTables) (l : List Insn) : CviOutcome :=
  let vlist := l.filter (·.attrib .cvi)
  if 4 < vlist.length then .outOfBounds
  else
    match runChecks (populateChecks S) ∅ (vlist.map fun i => ⟨i, true, ∅⟩) with
    | none => .aborted
    | some l => .populated l

namespace HvxCheck

/-- What a check serves and what would do for it, written down or not. -/
def stage (p : HvxCheck) : Stage Insn HvxResource := ⟨p.takes, fun i => (p.choices i).map HvxChoice.uses⟩

@[simp] theorem stage_takes (p : HvxCheck) : p.stage.takes = p.takes := rfl

end HvxCheck

section Fair

open HvxResource

/-- What a memory instruction can ask for. -/
def memSets : List (List (Finset HvxResource)) :=
  [[{load, perm}, {load, shift}, {load, mpy0}, {load, mpy1}], [{load}],
    [{store, perm}, {store, shift}, {store, mpy0}, {store, mpy1}], [{store}], []]

/-- What the checks can ask for, in their order. -/
def populateSets : List (List (List (Finset HvxResource))) :=
  [[[{perm, shift, mpy0, mpy1}]], [[{load, store, perm}]], [[{shift, perm}]], [[{perm}]], [[{shift}]], [[{mpy0, mpy1}]],
    [[{shift, mpy0}, {perm, mpy1}]], [[{mpy0}, {mpy1}]], [[{shift, perm}, {mpy0, mpy1}]], memSets,
    [[{shift}, {perm}, {mpy0}, {mpy1}]]]

/-- The same, without the pairs that are written down as others. -/
def recordedSets : List (List (List (Finset HvxResource))) :=
  [[[{perm, shift, mpy0, mpy1}]], [[{load, store, perm}]], [[{shift, perm}]], [[{perm}]], [[{shift}]], [[{mpy0, mpy1}]],
    [[{shift, mpy0}]], [[{mpy0}, {mpy1}]], [[{shift, perm}]], memSets, [[{shift}, {perm}, {mpy0}, {mpy1}]]]

/-- The exchanges that are needed: two of the four units, or two with two. -/
def exchanges : List (Equiv.Perm HvxResource) :=
  [.refl _, .swap shift perm, .swap shift mpy0, .swap shift mpy1, .swap perm mpy0, .swap perm mpy1, .swap mpy0 mpy1,
    (Equiv.swap shift perm).trans (.swap mpy0 mpy1), (Equiv.swap shift mpy0).trans (.swap perm mpy1)]

/-- `FairStages`, for what the stages can ask for. -/
def fairSets : List (List (List (Finset HvxResource))) → Bool
  | [] => true
  | k :: ks => (k.all fun sets => sets.all fun a => sets.all fun b => exchanges.any fun π =>
      decide (b.map π.toEmbedding = a) && decide (∀ y, y ∉ a → y ∉ b → π y = y) &&
        (k :: ks).all fun k' => k'.all fun sets' => sets'.all fun c => decide (c.map π.toEmbedding ∈ sets')) &&
          fairSets ks

theorem fair_populateSets : fairSets populateSets = true := by decide +kernel

theorem fair_recordedSets : fairSets recordedSets = true := by decide +kernel

/-- Checks that ask for no more than `ks`. -/
abbrev AskFor (ps : List HvxCheck) (ks : List (List (List (Finset HvxResource)))) : Prop :=
  List.Forall₂ (fun p k => ∀ i, p.stage.sets i ∈ k) ps ks

theorem mem_of_askFor : ∀ {ps : List HvxCheck} {ks : List (List (List (Finset HvxResource)))}, AskFor ps ks →
    ∀ q ∈ ps.map HvxCheck.stage, ∃ k ∈ ks, ∀ i, q.sets i ∈ k
  | _, _, .nil, q, hq => absurd hq List.not_mem_nil
  | _, _, .cons hp hps, q, hq => by
    rcases List.mem_cons.1 hq with rfl | hq
    · exact ⟨_, List.mem_cons_self, hp⟩
    · obtain ⟨k, hk, h⟩ := mem_of_askFor hps q hq
      exact ⟨k, List.mem_cons_of_mem _ hk, h⟩

theorem fair_of_askFor : ∀ {ps : List HvxCheck} {ks : List (List (List (Finset HvxResource)))}, AskFor ps ks →
    fairSets ks = true → Allotment.FairStages (ps.map HvxCheck.stage)
  | _, _, .nil, _ => trivial
  | p :: ps, k :: ks, .cons hp hps, h => by
    simp only [fairSets, Bool.and_eq_true, List.all_eq_true, List.any_eq_true, decide_eq_true_eq] at h
    refine ⟨fun i _ a ha b hb => ?_, fair_of_askFor hps h.2⟩
    obtain ⟨π, -, ⟨hmap, hfix⟩, hkeeps⟩ := h.1 _ (hp i) a ha b hb
    refine ⟨π, hmap, hfix, fun q hq y _ c hc => ?_⟩
    obtain ⟨k', hk', hsets⟩ := mem_of_askFor (.cons hp hps) q hq
    exact hkeeps k' hk' _ (hsets y) c hc

theorem memSets_mem (S : HvxTables) (i : Insn) : (checkMemInstruction S).stage.sets i ∈ memSets := by
  simp only [HvxCheck.stage, checkMemInstruction, memChoices]
  cases i.attrib .load <;> cases i.attrib .store <;> cases i.attrib .cviTmp <;> cases i.attrib .cviNew <;> decide

theorem populate_askFor (S : HvxTables) : AskFor (populateChecks S) populateSets := by
  have hone : ∀ sets : List (Finset HvxResource), sets ∈ [sets] := fun _ => List.mem_singleton_self _
  exact .cons (fun _ => hone _) (.cons (fun _ => hone _) (.cons (fun _ => hone _) (.cons (fun _ => hone _)
    (.cons (fun _ => hone _) (.cons (fun _ => hone _) (.cons (fun _ => hone _) (.cons (fun _ => hone _)
    (.cons (fun _ => hone _) (.cons (memSets_mem S) (.cons (fun _ => hone _) .nil))))))))))

end Fair

section Loop

variable {p : HvxCheck} {used used' : Finset HvxResource} {l l' : List HvxEntry}

/-- The instructions of `ilist` that are not served yet. -/
def waiting (l : List HvxEntry) : List Insn := (l.filter (·.waits)).map HvxEntry.insn

theorem pick_stage (p : HvxCheck) (used : Finset HvxResource) (i : Insn) :
    pick used (p.stage.sets i) = (p.grab used i).map HvxChoice.uses := List.find?_map

theorem filter_waiting_cons {e : HvxEntry} (h : (e.waits && p.takes e.insn) = false) :
    (waiting (e :: l)).filter p.takes = (waiting l).filter p.takes := by
  cases hw : e.waits with
  | false => simp [waiting, hw]
  | true =>
    have hnot : p.takes e.insn = false := by simpa [hw] using h
    simp [waiting, hw, hnot]

/-- What a check does to those that wait: it serves the ones it takes, in their order. -/
theorem loop_spec : ∀ (l : List HvxEntry) (used : Finset HvxResource),
    let served := ((waiting l).filter p.takes).map p.stage.sets
    match p.loop used l with
    | none => allot used served = none
    | some r => ∃ c, allot used served = some c ∧ r.1 = c.foldl (· ∪ ·) used ∧
        waiting r.2 = (waiting l).filter fun i => !p.takes i
  | [], used => ⟨[], rfl, rfl, rfl⟩
  | e :: l, used => by
    intro served
    by_cases ht : (e.waits && p.takes e.insn) = true
    · obtain ⟨hw, htakes⟩ := (Bool.and_eq_true _ _).mp ht
      have hwait : waiting (e :: l) = e.insn :: waiting l := by simp [waiting, hw]
      have hserved : served = p.stage.sets e.insn :: ((waiting l).filter p.takes).map p.stage.sets := by
        simp only [served, hwait, List.filter_cons, htakes, if_true, List.map_cons]
      rw [hserved, HvxCheck.loop, if_pos ht, allot, pick_stage]
      cases hc : p.grab used e.insn with
      | none => rfl
      | some c =>
        have ih := loop_spec l (used ∪ c.uses)
        simp only [bind, Option.bind_some, Option.map_some]
        cases hr : p.loop (used ∪ c.uses) l with
        | none =>
          rw [hr] at ih
          simp only [Option.bind_none]
          rw [ih, Option.map_none]
        | some r =>
          rw [hr] at ih
          obtain ⟨d, hd, hused, hleft⟩ := ih
          refine ⟨c.uses :: d, by rw [hd, Option.map_some], hused, ?_⟩
          rw [hwait, List.filter_cons_of_neg (by simp [htakes]), ← hleft]
          rfl
    · -- passed over: served before, or not of this check
      have hserved : served = ((waiting l).filter p.takes).map p.stage.sets := by
        simp only [served]
        rw [filter_waiting_cons (by simpa using ht)]
      have ih := loop_spec l used
      rw [hserved, HvxCheck.loop, if_neg ht]
      cases hr : p.loop used l with
      | none =>
        rw [hr] at ih
        exact ih
      | some r =>
        rw [hr] at ih
        obtain ⟨d, hd, hused, hleft⟩ := ih
        refine ⟨d, hd, hused, ?_⟩
        cases hw : e.waits with
        | false =>
          simp only [waiting, List.filter_cons, hw, Bool.false_eq_true, if_false]
          exact hleft
        | true =>
          have hnot : p.takes e.insn = false := by simpa [hw] using ht
          simp only [waiting, List.filter_cons, hw, if_true, List.map_cons, hnot, Bool.not_false]
          exact congrArg (e.insn :: ·) hleft

/-- The checks go through exactly when greedy serves the requests in the order of the checks. -/
theorem runChecks_isSome : ∀ (ps : List HvxCheck) (used : Finset HvxResource) (l : List HvxEntry),
    (∃ m, runChecks ps used l = some m) ↔ ∃ c, allot used (requests (ps.map HvxCheck.stage) (waiting l)) = some c
  | [], used, l => by
    refine ⟨fun _ => ?_, fun _ => ⟨l, rfl⟩⟩
    refine Allotment.exists_allot (Allotment.fair_requests (waiting l) (trivial : Allotment.FairStages []))
      (c := (waiting l).map fun _ => ∅) ⟨?_, ?_, ?_⟩
    · rw [List.map_nil, requests, List.forall₂_map_left_iff, List.forall₂_map_right_iff]
      exact List.forall₂_same.2 fun _ _ => List.mem_singleton_self _
    · intro a ha
      obtain ⟨_, -, rfl⟩ := List.mem_map.1 ha
      exact Finset.disjoint_empty_right _
    · exact List.pairwise_map.2 (List.pairwise_of_forall fun _ _ => Finset.disjoint_empty_right _)
  | p :: ps, used, l => by
    have hspec := loop_spec (p := p) l used
    rw [List.map_cons, requests, Allotment.allot_append, runChecks]
    simp only [HvxCheck.stage_takes]
    cases hr : p.loop used l with
    | none =>
      rw [hr] at hspec
      rw [hspec]
      constructor
      · rintro ⟨m, hm⟩
        cases hm
      · rintro ⟨c, hc⟩
        cases hc
    | some r =>
      rw [hr] at hspec
      obtain ⟨c, hc, hused, hleft⟩ := hspec
      rw [hc, Option.bind_some, ← hused]
      have ih := runChecks_isSome ps r.1 r.2
      rw [hleft] at ih
      simp only [bind, Option.bind_some]
      rw [ih]
      constructor
      · rintro ⟨d, hd⟩
        exact ⟨c ++ d, by rw [hd, Option.map_some]⟩
      · rintro ⟨d, hd⟩
        obtain ⟨d', hd', -⟩ := Option.map_eq_some_iff.1 hd
        exact ⟨d', hd'⟩

end Loop

/-- The sets of resources that would do for a vector instruction, by the first check that takes it. -/
def HvxTables.needs (S : HvxTables) (i : Insn) : List (Finset HvxResource) :=
  wants ((populateChecks S).map HvxCheck.stage) i

/-- The vector instructions of a packet can all have what they need, no resource given twice. -/
def CanShareHvx (needs : Insn → List (Finset HvxResource)) (l : List Insn) : Prop :=
  ∃ c, List.Forall₂ (fun i a => a ∈ needs i) l c ∧ c.Pairwise Disjoint

theorem shares_needs {needs : Insn → List (Finset HvxResource)} {l : List Insn} :
    (∃ c, Allotment.Shares ∅ (l.map needs) c) ↔ CanShareHvx needs l :=
  ⟨fun ⟨c, h⟩ => ⟨c, List.forall₂_map_left_iff.1 h.mem, h.apart⟩,
    fun ⟨c, hmem, hapart⟩ => ⟨c, List.forall₂_map_left_iff.2 hmem, fun _ _ => Finset.disjoint_empty_left _, hapart⟩⟩

theorem waiting_vlist (l : List Insn) : waiting (l.map fun i => ⟨i, true, ∅⟩) = l := by
  simp [waiting, List.filter_map, Function.comp_def]

theorem populated_runChecks {S : HvxTables} {l : List Insn} {m : List HvxEntry} :
    decodePopulateCviResources S l = .populated m ↔ (l.filter (·.attrib .cvi)).length ≤ 4 ∧
      runChecks (populateChecks S) ∅ ((l.filter (·.attrib .cvi)).map fun i => ⟨i, true, ∅⟩) = some m := by
  unfold decodePopulateCviResources
  simp only
  by_cases hlen : 4 < (l.filter (·.attrib .cvi)).length
  · rw [if_pos hlen]
    exact ⟨fun h => CviOutcome.noConfusion h, fun h => absurd h.1 (by omega)⟩
  · rw [if_neg hlen]
    cases runChecks (populateChecks S) ∅ ((l.filter (·.attrib .cvi)).map fun i => ⟨i, true, ∅⟩) with
    | none => exact ⟨fun h => CviOutcome.noConfusion h, fun h => by cases h.2⟩
    | some r =>
      refine ⟨fun h => ⟨by omega, ?_⟩, fun h => ?_⟩
      · cases h
        rfl
      · cases h.2
        rfl

theorem runChecks_iff (S : HvxTables) (vlist : List Insn) :
    (∃ m, runChecks (populateChecks S) ∅ (vlist.map fun i => ⟨i, true, ∅⟩) = some m) ↔ CanShareHvx S.needs vlist := by
  rw [runChecks_isSome, waiting_vlist,
    Allotment.allot_requests_iff (fair_of_askFor (populate_askFor S) fair_populateSets)]
  exact shares_needs

/-- **The checks of the vector resources never give up early**: up to four vector instructions go through exactly when
their resources can be shared out at all. -/
theorem populated_iff (S : HvxTables) (l : List Insn) : (∃ m, decodePopulateCviResources S l = .populated m) ↔
    (l.filter (·.attrib .cvi)).length ≤ 4 ∧ CanShareHvx S.needs (l.filter (·.attrib .cvi)) := by
  simp only [populated_runChecks, exists_and_left, runChecks_iff]

section Marks

namespace HvxCheck

/-- The check, trying only what it would write down as it is. -/
def recorded (p : HvxCheck) : HvxCheck := ⟨p.takes, fun i => (p.choices i).filter fun c => decide (c.uses = c.marks)⟩

/-- What a check tries is written down as it is, up to the second of two pairs that is written down as the first. -/
def Records (p : HvxCheck) : Prop :=
  ∀ i, (∀ c ∈ p.choices i, c.uses = c.marks) ∨ ∃ a b, p.choices i = [.plain a, ⟨b, a⟩] ∧ b ≠ a

end HvxCheck

theorem uses_plain (rs : List (Finset HvxResource)) : ∀ c ∈ rs.map HvxChoice.plain, c.uses = c.marks := fun c hc => by
  obtain ⟨r, -, rfl⟩ := List.mem_map.1 hc
  rfl

theorem uses_mem (S : HvxTables) (i : Insn) : ∀ c ∈ (checkMemInstruction S).choices i, c.uses = c.marks := by
  simp only [checkMemInstruction, memChoices]
  split <;> split
  · exact uses_plain [_, _, _, _]
  · exact uses_plain [_]
  · split
    · exact uses_plain [_, _, _, _]
    · exact uses_plain [_]
  · exact uses_plain []

theorem records_populate (S : HvxTables) : ∀ p ∈ populateChecks S, p.Records := by
  intro p hp
  simp only [populateChecks, List.mem_cons, List.not_mem_nil, or_false] at hp
  rcases hp with rfl | rfl | rfl | rfl | rfl | rfl | rfl | rfl | rfl | rfl | rfl
  · exact fun _ => .inl (uses_plain [_])
  · exact fun _ => .inl (uses_plain [_])
  · exact fun _ => .inl (uses_plain [_])
  · exact fun _ => .inl (uses_plain [_])
  · exact fun _ => .inl (uses_plain [_])
  · exact fun _ => .inl (uses_plain [_])
  · exact fun _ => .inr ⟨_, _, rfl, by decide⟩
  · exact fun _ => .inl (uses_plain [_, _])
  · exact fun _ => .inr ⟨_, _, rfl, by decide⟩
  · exact fun i => .inl (uses_mem S i)
  · exact fun _ => .inl (uses_plain [_, _, _, _])

variable {p : HvxCheck} {used : Finset HvxResource} {l : List HvxEntry}

/-- What is given is written down, or stands for a pair of which something was in use. -/
theorem grab_records (hp : p.Records) {i : Insn} {c : HvxChoice} (h : p.grab used i = some c) :
    (p.recorded.grab used i = some c ∧ c.uses = c.marks) ∨
      (p.recorded.grab used i = none ∧ ¬ Disjoint used c.marks) := by
  unfold HvxCheck.grab at h ⊢
  rcases hp i with hall | ⟨a, b, hab, hne⟩
  · have hsame : p.recorded.choices i = p.choices i := List.filter_eq_self.2 fun c hc => by simpa using hall c hc
    rw [hsame]
    exact .inl ⟨h, hall c (List.mem_of_find?_eq_some h)⟩
  · have hfirst : p.recorded.choices i = [.plain a] := by simp [HvxCheck.recorded, hab, HvxChoice.plain, hne]
    rw [hab] at h
    rw [hfirst]
    by_cases ha : Disjoint used a
    · simp only [List.find?_cons, HvxChoice.plain, decide_eq_true ha, Option.some.injEq] at h ⊢
      subst h
      exact .inl ⟨rfl, rfl⟩
    · simp only [List.find?_cons, HvxChoice.plain, decide_eq_false ha, List.find?_nil] at h ⊢
      split at h
      · cases h
        exact .inr ⟨trivial, ha⟩
      · cases h

theorem grab_recorded {i : Insn} (h : p.grab used i = none) : p.recorded.grab used i = none :=
  List.find?_eq_none.2 fun c hc => List.find?_eq_none.1 h c (List.mem_of_mem_filter hc)

/-- What is written down is what is in use, each resource for one instruction; nothing for those that wait. -/
structure MarksApart (used : Finset HvxResource) (l : List HvxEntry) : Prop where
  apart : (l.map HvxEntry.hvxResource).Pairwise Disjoint
  users : ∀ r ∈ used, ∃ e ∈ l, r ∈ e.hvxResource
  free : ∀ e ∈ l, e.hvxResource ⊆ used
  waits : ∀ e ∈ l, e.waits = true → e.hvxResource = ∅

/-- A later state of an entry: what is written down stays. -/
def HvxEntry.Grows (e e' : HvxEntry) : Prop := e.hvxResource ⊆ e'.hvxResource

theorem exists_grown : ∀ {l l' : List HvxEntry}, List.Forall₂ HvxEntry.Grows l l' → ∀ {e}, e ∈ l →
    ∃ e' ∈ l', e.Grows e'
  | _, _, .cons he hl, e, h => by
    rcases List.mem_cons.1 h with rfl | h
    · exact ⟨_, List.mem_cons_self, he⟩
    · obtain ⟨e', he', hgrows⟩ := exists_grown hl h
      exact ⟨e', List.mem_cons_of_mem _ he', hgrows⟩

theorem loop_grows : ∀ {l : List HvxEntry} {used : Finset HvxResource} {r : Finset HvxResource × List HvxEntry},
    p.loop used l = some r → List.Forall₂ HvxEntry.Grows l r.2
  | [], _, _, h => by
    cases h
    exact .nil
  | e :: l, used, r, h => by
    rw [HvxCheck.loop] at h
    split at h
    · simp only [bind, Option.bind_eq_some_iff] at h
      obtain ⟨c, -, r', hr', h⟩ := h
      cases h
      exact .cons Finset.subset_union_left (loop_grows hr')
    · simp only [bind, Option.bind_eq_some_iff] at h
      obtain ⟨r', hr', h⟩ := h
      cases h
      exact .cons (Finset.Subset.refl _) (loop_grows hr')

theorem apart_of_grows : ∀ {l l' : List HvxEntry}, List.Forall₂ HvxEntry.Grows l l' →
    (l'.map HvxEntry.hvxResource).Pairwise Disjoint → (l.map HvxEntry.hvxResource).Pairwise Disjoint
  | _, _, .nil, _ => .nil
  | e :: l, e' :: l', .cons he hl, h => by
    obtain ⟨hhead, htail⟩ := List.pairwise_cons.1 h
    refine List.pairwise_cons.2 ⟨fun a ha => ?_, apart_of_grows hl htail⟩
    obtain ⟨f, hf, rfl⟩ := List.mem_map.1 ha
    obtain ⟨f', hf', hgrows⟩ := exists_grown hl hf
    exact (hhead _ (List.mem_map_of_mem hf')).mono he hgrows

theorem apart_of_runChecks : ∀ {ps : List HvxCheck} {used : Finset HvxResource} {l m : List HvxEntry},
    runChecks ps used l = some m → (m.map HvxEntry.hvxResource).Pairwise Disjoint →
      (l.map HvxEntry.hvxResource).Pairwise Disjoint
  | [], _, _, _, h, hm => by
    cases h
    exact hm
  | p :: ps, used, l, m, h, hm => by
    simp only [runChecks, bind, Option.bind_eq_some_iff] at h
    obtain ⟨r, hr, h⟩ := h
    exact apart_of_grows (loop_grows hr) (apart_of_runChecks h hm)

variable {pre : List HvxEntry}

theorem MarksApart.serve {e : HvxEntry} (h : MarksApart used (pre ++ e :: l)) (hw : e.waits = true) {c : HvxChoice}
    (hfree : Disjoint used c.uses) (hc : c.uses = c.marks) :
    MarksApart (used ∪ c.uses) (pre ++ [⟨e.insn, false, e.hvxResource ∪ c.marks⟩] ++ l) := by
  have he : e.hvxResource = ∅ := h.waits e (by simp) hw
  have hothers : ∀ f, f ∈ pre ∨ f ∈ l → f ∈ pre ++ e :: l := fun f hf => by
    rcases hf with hf | hf
    · exact List.mem_append_left _ hf
    · exact List.mem_append_right _ (List.mem_cons_of_mem _ hf)
  have happart := h.apart
  rw [List.map_append, List.map_cons, List.pairwise_append, List.pairwise_cons] at happart
  obtain ⟨hpre, ⟨-, hl⟩, hbetween⟩ := happart
  have hnew : ∀ f, f ∈ pre ∨ f ∈ l → Disjoint f.hvxResource (e.hvxResource ∪ c.marks) := fun f hf => by
    rw [he, Finset.empty_union, ← hc]
    exact hfree.mono (h.free f (hothers f hf)) (Finset.Subset.refl _)
  refine ⟨?_, fun r hr => ?_, fun f hf => ?_, fun f hf hwf => ?_⟩
  · rw [List.append_assoc, List.map_append, List.singleton_append, List.map_cons, List.pairwise_append,
      List.pairwise_cons]
    refine ⟨hpre, ⟨fun a ha => ?_, hl⟩, fun a ha b hb => ?_⟩
    · obtain ⟨f, hf, rfl⟩ := List.mem_map.1 ha
      exact (hnew f (.inr hf)).symm
    · rcases List.mem_cons.1 hb with rfl | hb
      · obtain ⟨f, hf, rfl⟩ := List.mem_map.1 ha
        exact hnew f (.inl hf)
      · exact hbetween a ha b (List.mem_cons_of_mem _ hb)
  · rcases Finset.mem_union.1 hr with hr | hr
    · obtain ⟨f, hf, hrf⟩ := h.users r hr
      rcases List.mem_append.1 hf with hf | hf
      · exact ⟨f, by simp [hf], hrf⟩
      · rcases List.mem_cons.1 hf with rfl | hf
        · rw [he] at hrf
          exact absurd hrf (Finset.notMem_empty r)
        · exact ⟨f, by simp [hf], hrf⟩
    · exact ⟨⟨e.insn, false, e.hvxResource ∪ c.marks⟩, by simp, Finset.mem_union_right e.hvxResource (hc ▸ hr)⟩
  · rw [List.append_assoc, List.singleton_append] at hf
    rcases List.mem_append.1 hf with hf | hf
    · exact (h.free f (hothers f (.inl hf))).trans Finset.subset_union_left
    · rcases List.mem_cons.1 hf with rfl | hf
      · rw [he, Finset.empty_union, ← hc]
        exact Finset.subset_union_right
      · exact (h.free f (hothers f (.inr hf))).trans Finset.subset_union_left
  · rw [List.append_assoc, List.singleton_append] at hf
    rcases List.mem_append.1 hf with hf | hf
    · exact h.waits f (hothers f (.inl hf)) hwf
    · rcases List.mem_cons.1 hf with rfl | hf
      · cases hwf
      · exact h.waits f (hothers f (.inr hf)) hwf

/-- A mark that stands for something in use overlaps the mark of what uses it, now and later. -/
theorem MarksApart.clash {e e' : HvxEntry} {l' : List HvxEntry} (h : MarksApart used (pre ++ e :: l))
    (hw : e.waits = true)
    {r : HvxResource} (hr : r ∈ used) (hr' : r ∈ e'.hvxResource) (hgrows : List.Forall₂ HvxEntry.Grows l l') :
    ¬ ((pre ++ e' :: l').map HvxEntry.hvxResource).Pairwise Disjoint := by
  intro happart
  rw [List.map_append, List.map_cons, List.pairwise_append, List.pairwise_cons] at happart
  obtain ⟨-, ⟨hhead, -⟩, hbetween⟩ := happart
  obtain ⟨f, hf, hrf⟩ := h.users r hr
  rcases List.mem_append.1 hf with hf | hf
  · exact Finset.disjoint_left.1 (hbetween _ (List.mem_map_of_mem hf) _ List.mem_cons_self) hrf hr'
  · rcases List.mem_cons.1 hf with rfl | hf
    · rw [h.waits f (by simp) hw] at hrf
      exact absurd hrf (Finset.notMem_empty r)
    · obtain ⟨f', hf', hgrow⟩ := exists_grown hgrows hf
      exact Finset.disjoint_left.1 (hhead _ (List.mem_map_of_mem hf')) hr' (hgrow hrf)

/-- A loop writes down what it gives, as the loop does that tries nothing else; or it writes something down twice. -/
theorem loop_records (hp : p.Records) : ∀ {l pre : List HvxEntry} {used : Finset HvxResource}
    {r : Finset HvxResource × List HvxEntry}, MarksApart used (pre ++ l) → p.loop used l = some r →
      (p.recorded.loop used l = some r ∧ MarksApart r.1 (pre ++ r.2)) ∨
        (p.recorded.loop used l = none ∧ ¬ ((pre ++ r.2).map HvxEntry.hvxResource).Pairwise Disjoint)
  | [], pre, used, r, hm, h => by
    cases h
    exact .inl ⟨rfl, hm⟩
  | e :: l, pre, used, r, hm, h => by
    rw [HvxCheck.loop] at h ⊢
    by_cases ht : (e.waits && p.takes e.insn) = true
    · rw [if_pos ht] at h
      rw [if_pos (show (e.waits && p.recorded.takes e.insn) = true from ht)]
      simp only [bind, Option.bind_eq_some_iff] at h
      obtain ⟨c, hc, r', hr', h⟩ := h
      cases h
      have hw : e.waits = true := (Bool.and_eq_true _ _ ▸ ht).1
      rcases grab_records hp hc with ⟨hrec, hplain⟩ | ⟨hrec, hclash⟩
      · have hfree : Disjoint used c.uses := by simpa using List.find?_some hc
        have ih := loop_records hp (hm.serve hw hfree hplain) hr'
        rw [hrec]
        simp only [bind, Option.bind_some]
        rcases ih with ⟨hloop, hm'⟩ | ⟨hloop, hclash⟩
        · exact .inl ⟨by rw [hloop]; rfl, by simpa using hm'⟩
        · exact .inr ⟨by rw [hloop]; rfl, by simpa using hclash⟩
      · obtain ⟨x, hx, hxm⟩ := Finset.not_disjoint_iff.1 hclash
        refine .inr ⟨by rw [hrec]; rfl, hm.clash hw hx ?_ (loop_grows hr')⟩
        exact Finset.mem_union_right e.hvxResource hxm
    · rw [if_neg ht] at h
      rw [if_neg (show ¬ (e.waits && p.recorded.takes e.insn) = true from ht)]
      simp only [bind, Option.bind_eq_some_iff] at h
      obtain ⟨r', hr', h⟩ := h
      cases h
      have hm' : MarksApart used (pre ++ [e] ++ l) := by simpa using hm
      rcases loop_records hp hm' hr' with ⟨hloop, hm''⟩ | ⟨hloop, hclash⟩
      · exact .inl ⟨by rw [hloop]; rfl, by simpa using hm''⟩
      · exact .inr ⟨by rw [hloop]; rfl, by simpa using hclash⟩

/-- Where a loop gives up, so does the loop that tries less. -/
theorem loop_recorded (hp : p.Records) : ∀ {l : List HvxEntry} {used : Finset HvxResource}, p.loop used l = none →
    p.recorded.loop used l = none
  | [], _, h => by cases h
  | e :: l, used, h => by
    rw [HvxCheck.loop] at h ⊢
    by_cases ht : (e.waits && p.takes e.insn) = true
    · rw [if_pos ht] at h
      rw [if_pos (show (e.waits && p.recorded.takes e.insn) = true from ht)]
      cases hc : p.grab used e.insn with
      | none => rw [grab_recorded hc]; rfl
      | some c =>
        rw [hc] at h
        rcases grab_records hp hc with ⟨hrec, -⟩ | ⟨hrec, -⟩
        · rw [hrec]
          cases hr : p.loop (used ∪ c.uses) l with
          | none => simp only [bind, Option.bind_some, loop_recorded hp hr, Option.bind_none]
          | some r => simp only [bind, Option.bind_some, hr, reduceCtorEq] at h
        · rw [hrec]; rfl
    · rw [if_neg ht] at h
      rw [if_neg (show ¬ (e.waits && p.recorded.takes e.insn) = true from ht)]
      cases hr : p.loop used l with
      | none => rw [loop_recorded hp hr]; rfl
      | some r => simp only [bind, Option.bind_some, hr, reduceCtorEq] at h

/-- The checks write no resource down twice exactly when they go through trying only what they write down as it is. -/
theorem runChecks_recorded : ∀ {ps : List HvxCheck} {used : Finset HvxResource} {l : List HvxEntry},
    (∀ p ∈ ps, p.Records) → MarksApart used l → ((∃ m, runChecks (ps.map HvxCheck.recorded) used l = some m) ↔
      ∃ m, runChecks ps used l = some m ∧ (m.map HvxEntry.hvxResource).Pairwise Disjoint)
  | [], _, l, _, hm => ⟨fun _ => ⟨l, rfl, hm.apart⟩, fun _ => ⟨l, rfl⟩⟩
  | p :: ps, used, l, hps, hm => by
    have hp := hps p List.mem_cons_self
    simp only [List.map_cons, runChecks]
    cases hr : p.loop used l with
    | none =>
      rw [loop_recorded hp hr]
      simp [bind]
    | some r =>
      rcases @loop_records _ hp _ [] _ _ hm hr with ⟨hrec, hm'⟩ | ⟨hrec, hclash⟩
      · rw [hrec]
        exact runChecks_recorded (fun q hq => hps q (List.mem_cons_of_mem _ hq)) hm'
      · rw [hrec]
        simp only [bind, Option.bind_none, Option.bind_some, reduceCtorEq, exists_false, false_iff]
        rintro ⟨m, hrun, hapart⟩
        exact hclash (apart_of_runChecks hrun hapart)

theorem marksApart_vlist (l : List Insn) : MarksApart ∅ (l.map fun i => ⟨i, true, ∅⟩) := by
  refine ⟨?_, fun r hr => absurd hr (Finset.notMem_empty r), fun e he => ?_, fun e he _ => ?_⟩
  · rw [List.map_map]
    exact List.pairwise_map.2 (List.pairwise_of_forall fun _ _ => Finset.disjoint_empty_right _)
  · obtain ⟨i, -, rfl⟩ := List.mem_map.1 he
    exact Finset.empty_subset _
  · obtain ⟨i, -, rfl⟩ := List.mem_map.1 he
    rfl

end Marks

/-- The sets of resources that would do for a vector instruction and are written down as they are. -/
def HvxTables.firstNeeds (S : HvxTables) (i : Insn) : List (Finset HvxResource) :=
  wants (((populateChecks S).map HvxCheck.recorded).map HvxCheck.stage) i

theorem recorded_askFor (S : HvxTables) : AskFor ((populateChecks S).map HvxCheck.recorded) recordedSets := by
  have hone : ∀ sets : List (Finset HvxResource), sets ∈ [sets] := fun _ => List.mem_singleton_self _
  have hmem : ∀ i, (checkMemInstruction S).recorded.stage.sets i ∈ memSets := fun i => by
    have hsame : (checkMemInstruction S).recorded.choices i = (checkMemInstruction S).choices i :=
      List.filter_eq_self.2 fun c hc => decide_eq_true (uses_mem S i c hc)
    have hsets : (checkMemInstruction S).recorded.stage.sets i = (checkMemInstruction S).stage.sets i :=
      congrArg (List.map HvxChoice.uses) hsame
    rw [hsets]
    exact memSets_mem S i
  exact .cons (fun _ => hone _) (.cons (fun _ => hone _) (.cons (fun _ => hone _) (.cons (fun _ => hone _)
    (.cons (fun _ => hone _) (.cons (fun _ => hone _) (.cons (fun _ => hone _) (.cons (fun _ => hone _)
    (.cons (fun _ => hone _) (.cons hmem (.cons (fun _ => hone _) .nil))))))))))

/-- **What `hvx_resource` says can be trusted** exactly when the instructions can share the resources without the second
pairs: then no resource is written down for two of them. -/
theorem marks_apart_iff (S : HvxTables) (l : List Insn) :
    (∃ m, decodePopulateCviResources S l = .populated m ∧ (m.map HvxEntry.hvxResource).Pairwise Disjoint) ↔
      (l.filter (·.attrib .cvi)).length ≤ 4 ∧ CanShareHvx S.firstNeeds (l.filter (·.attrib .cvi)) := by
  have hrun := runChecks_isSome ((populateChecks S).map HvxCheck.recorded) ∅
    ((l.filter (·.attrib .cvi)).map fun i => ⟨i, true, ∅⟩)
  rw [waiting_vlist, Allotment.allot_requests_iff (fair_of_askFor (recorded_askFor S) fair_recordedSets),
    runChecks_recorded (records_populate S) (marksApart_vlist _)] at hrun
  simp only [populated_runChecks, and_assoc, exists_and_left, hrun]
  exact and_congr_right fun _ => shares_needs

section Decoded

/-- `mmvec_ext_decode_checks`, its `check_new_value` given; past the four places of `vlist` nothing is said. -/
def HvxTables.checks (S : HvxTables) (checkNewValue : MmvecChecks) : MmvecChecks where
  check l := (checkNewValue.check l).bind fun l =>
    match decodePopulateCviResources S l with
    | .aborted => none
    | .outOfBounds | .populated _ => some l
  same l l' h := by
    obtain ⟨m, hm, h⟩ := Option.bind_eq_some_iff.1 h
    split at h
    · cases h
    · cases h
      exact checkNewValue.same l _ hm
    · cases h
      exact checkNewValue.same l _ hm

theorem checks_some {S : HvxTables} {checkNewValue : MmvecChecks} {l l' : List Insn}
    (h : (S.checks checkNewValue).check l = some l') (hlen : (l'.filter (·.attrib .cvi)).length ≤ 4) :
    CanShareHvx S.needs (l'.filter (·.attrib .cvi)) := by
  obtain ⟨m, -, h⟩ := Option.bind_eq_some_iff.1 h
  split at h
  · cases h
  · rename_i hout
    cases h
    unfold decodePopulateCviResources at hout
    simp only [if_neg (show ¬ 4 < (l'.filter (·.attrib .cvi)).length by omega)] at hout
    split at hout <;> cases hout
  · rename_i r hr
    cases h
    exact (runChecks_iff S _).1 ⟨r, (populated_runChecks.1 hr).2⟩

theorem moveCviToEnd_perm {last : Nat} : ∀ {n i : Nat} {l : List Insn}, last < l.length →
    (moveCviToEnd last n i l).Perm l
  | 0, _, _, _ => .rfl
  | n + 1, i, l, h => by
    unfold moveCviToEnd
    split
    · have hsent := @sendInsnTo_perm _ _ i _ h
      exact (moveCviToEnd_perm (hsent.length_eq ▸ h)).trans hsent
    · exact moveCviToEnd_perm h

theorem shuffleVops_perm (l : List Insn) : (shuffleVops l).Perm l := by
  have hlast : ∀ {m : List Insn} {i : Nat}, i < m.length → shuffled m - 1 < m.length := fun {m i} h => by
    have := shuffled_le m
    omega
  have hload : (shuffleVopsLoad l).Perm l := by
    unfold shuffleVopsLoad
    split
    · rename_i i hi
      obtain ⟨hlt, -⟩ := List.findIdx?_eq_some_iff_getElem.1 hi
      exact moveCviToEnd_perm (hlast hlt)
    · exact .rfl
  refine List.Perm.trans ?_ hload
  unfold shuffleVops shuffleVopsStore
  split
  · rename_i i hi
    obtain ⟨hlt, -⟩ := List.findIdx?_eq_some_iff_getElem.1 hi
    rw [List.length_take] at hlt
    exact sendInsnTo_perm (hlast (show i < (shuffleVopsLoad l).length by omega))
  · exact .rfl

theorem canShare_perm {needs : Insn → List (Finset HvxResource)} {l l' : List Insn} (h : l.Perm l') :
    CanShareHvx needs l → CanShareHvx needs l' := fun hl =>
  shares_needs.1 ((Allotment.shares_perm (h.map needs)).1 (shares_needs.2 hl))

/-- **No packet that is decoded asks for a vector resource twice**: up to four vector instructions can share them
out. -/
theorem decodePacket_shares (S : HvxTables) (checkNewValue : MmvecChecks) (T : DecodeTables)
    (hT : T.mmvecCheck = (S.checks checkNewValue).check) (words : List (BitVec 32)) (p : Packet)
    (h : (decodePacket T words).outcome = .packet p) (hext : p.insn.any (·.attrib .extension) = true)
    (hlen : (p.insn.filter (·.attrib .cvi)).length ≤ 4) : CanShareHvx S.needs (p.insn.filter (·.attrib .cvi)) := by
  obtain ⟨pre, last, rest, g, -, -, -, -, hfinish⟩ := decodePacket_packet h
  obtain ⟨hpasses, -⟩ := finish_packet hfinish
  simp only [finishPacket, bind, Option.bind_eq_some_iff] at hpasses
  obtain ⟨l₁, -, l₂, -, hpasses⟩ := hpasses
  split at hpasses
  · obtain ⟨l₃, hcheck, hshuffle⟩ := Option.bind_eq_some_iff.1 hpasses
    have hp : p.insn = shuffleVops l₃ := (Option.some.inj hshuffle).symm
    rw [hp] at hlen ⊢
    have hperm := (shuffleVops_perm l₃).filter (·.attrib .cvi)
    rw [hT] at hcheck
    exact canShare_perm hperm.symm (checks_some hcheck (hperm.length_eq ▸ hlen))
  · rename_i hnone
    have hp : p.insn = l₂ := (Option.some.inj hpasses).symm
    rw [hp] at hext
    exact absurd hext hnone

/-- A vector sum goes to any of the four units, a vector load to the memory port and one of them. -/
def vectorHvx : HvxTables where
  attribs
    | .other 24 => [.cviVa]
    | .other 25 => [.cviVm, .cviVa]
    | _ => []

/-- The tables of a vector sum and load, with the checks of the resources. -/
def checkedTables : DecodeTables where
  root32 := vectorTables.root32
  rootEe := vectorTables.rootEe
  immextLetter := vectorTables.immextLetter
  mmvecCheck := (vectorHvx.checks ⟨vectorTables.mmvecCheck, vectorTables.mmvecCheck_same⟩).check
  root32_fresh := vectorTables.root32_fresh
  rootEe_fresh := vectorTables.rootEe_fresh
  mmvecCheck_same := (vectorHvx.checks ⟨vectorTables.mmvecCheck, vectorTables.mmvecCheck_same⟩).same

/-- `{ v1.w=vadd(v0.w,v2.w); v0.cur=vmem(r0+#0) }`, where the load comes to the front. -/
theorem decodePacket_shares_vload : CanShareHvx vectorHvx.needs (vloadPacket.insn.filter (·.attrib .cvi)) :=
  decodePacket_shares vectorHvx ⟨vectorTables.mmvecCheck, vectorTables.mmvecCheck_same⟩ checkedTables rfl
    [0x1c424001, 0x2800c020] vloadPacket rfl (by decide) (by decide)

end Decoded

end Hex
