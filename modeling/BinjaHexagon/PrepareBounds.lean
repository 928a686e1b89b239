import BinjaHexagon.PreparedPacket
/-!
# PrepareBounds — the accesses to `Packet::insn`

Beside each pass the indices it reads or writes, as the C code computes them: they may be negative, or past the end.
-/
namespace Hex

/-- `n` places from `first` on. -/
def places (first n : Nat) : List Int := (List.range n).map fun k => ((first + k : Nat) : Int)

/-- `decode_send_insn_to` exchanges neighbours from `start` to `newloc`. -/
def sendAccesses (start newloc : Int) : List Int :=
  if start = newloc then []
  else (List.range ((max start newloc - min start newloc).toNat + 1)).map fun k : Nat => min start newloc + (k : Int)

/-- `decode_remove_extenders`, from index `n` on: behind an extender all that is left moves down. -/
def removeAccesses : Nat → List Insn → List Int
  | _, [] => []
  | n, [_] => [(n : Int)]
  | n, i :: j :: l =>
    if i.attrib .itExtender then
      places n (l.length + 2) ++ removeAccesses (n + 1) l
    else (n : Int) :: removeAccesses (n + 1) (j :: l)

/-- The store pass over `n` instructions. -/
def storeAccesses (n : Nat) : Nat → StorePass → List Int
  | 0, _ => []
  | i + 1, st =>
    (i : Int) :: ((if st.flag && st.insn[i]?.any (·.attrib .store) then sendAccesses i (n - 1 - st.nMems) else []) ++
      storeAccesses n i (storeStep n i st))

/-- The compare pass. -/
def compareAccesses : Nat → Nat → ComparePass → List Int
  | _, 0, _ => []
  | i, n + 1, st =>
    (i : Int) :: ((if st.flag && st.insn[i]?.any Insn.isCompare then sendAccesses i 0 else []) ++
      compareAccesses (i + 1) n (compareStep i st))

/-- The rounds. -/
def loopAccesses (n : Nat) : Nat → List Insn → List Int
  | 0, _ => []
  | fuel + 1, l =>
    storeAccesses n n ⟨l, false, 0, false⟩ ++
      if (storePass n l).changed then loopAccesses n fuel (storePass n l).insn
      else compareAccesses 0 n ⟨(storePass n l).insn, false, false⟩ ++
        if (comparePass n (storePass n l).insn).changed then
          loopAccesses n fuel (comparePass n (storePass n l).insn).insn
        else []

/-- One of the two last moves. -/
def lastAccesses (p : Insn → Bool) (n : Nat) (l : List Insn) : List Int :=
  match (l.take (n - 1)).findIdx? p with
  | some i => places 0 (i + 1) ++ sendAccesses i ((n : Int) - 1)
  | none => places 0 (n - 1)

/-- `decode_shuffle_for_execution` looks at the last instruction first. -/
def shuffleAccesses (fuel : Nat) (l : List Insn) : List Int :=
  ((l.length : Int) - 1) :: (loopAccesses (shuffled l) fuel l ++
    match shuffleLoop (shuffled l) fuel l with
    | none => []
    | some m => lastAccesses (·.attrib .dotnewvalue) (shuffled l) m ++
      lastAccesses (·.opcode.tag == .j2Rte) (shuffled l) (sendFirstToEnd (·.attrib .dotnewvalue) (shuffled l) m))

/-- The second loop of `decode_split_cmpjump`. -/
def frontAccesses : Nat → Nat → List Insn → List Int
  | _, 0, _ => []
  | i, n + 1, l =>
    (i : Int) :: ((if (l[i]?.map Insn.part1).getD false then sendAccesses i 0 else []) ++
      frontAccesses (i + 1) n (if (l[i]?.map Insn.part1).getD false then sendInsnTo l i 0 else l))

/-- `decode_split_cmpjump`: every compound jump is copied behind the last instruction. -/
def splitAccesses (l : List Insn) : List Int :=
  let compares := (l.filter (·.attrib .newcmpjump)).map part1Copy
  places 0 l.length ++ places l.length compares.length ++ frontAccesses 0 (l ++ compares).length (l ++ compares)

/-- `PreparePacketForLifting`. -/
def prepareAccesses (l : List Insn) : List Int :=
  removeAccesses 0 l ++ shuffleAccesses shuffleFuel (removeExtenders l) ++
    match shuffleForExecution shuffleFuel (removeExtenders l) with
    | none => []
    | some m => splitAccesses m

/-- Every index is in an array of `n` places. -/
def Within (n : Nat) (accesses : List Int) : Prop := ∀ i ∈ accesses, 0 ≤ i ∧ i < n

section Within

variable {n m : Nat} {a b : List Int}

theorem within_append : Within n (a ++ b) ↔ Within n a ∧ Within n b := List.forall_mem_append

theorem within_cons {i : Int} : Within n (i :: a) ↔ (0 ≤ i ∧ i < n) ∧ Within n a := List.forall_mem_cons

theorem within_nil : Within n [] := nofun

theorem within_places {first : Nat} (h : first + m ≤ n) : Within n (places first m) := fun i hi => by
  obtain ⟨k, hk, rfl⟩ := List.mem_map.1 hi
  have := List.mem_range.1 hk
  omega

theorem within_send {start newloc : Int} (h₀ : 0 ≤ start) (h₁ : start < n) (h₂ : 0 ≤ newloc) (h₃ : newloc < n) :
    Within n (sendAccesses start newloc) := by
  unfold sendAccesses
  split
  · exact within_nil
  · intro i hi
    obtain ⟨k, hk, rfl⟩ := List.mem_map.1 hi
    have := List.mem_range.1 hk
    omega

theorem removeAccesses_within : ∀ (l : List Insn) (k : Nat), Within (k + l.length) (removeAccesses k l)
  | [], _ => within_nil
  | [_], k => within_cons.2 ⟨by simp, within_nil⟩
  | i :: j :: l, k => by
    unfold removeAccesses
    split
    · refine within_append.2 ⟨within_places (Nat.le_refl _), fun x hx => ?_⟩
      · have := removeAccesses_within l (k + 1) x hx
        simp only [List.length_cons]
        omega
    · refine within_cons.2 ⟨?_, fun x hx => ?_⟩
      · simp only [List.length_cons]
        omega
      · have := removeAccesses_within (j :: l) (k + 1) x hx
        simp only [List.length_cons] at this ⊢
        omega

/-- The store pass has counted no more memory accesses than it has seen instructions. -/
theorem storeAccesses_within : ∀ {i : Nat} {st : StorePass}, i + st.nMems ≤ n → Within n (storeAccesses n i st)
  | 0, _, _ => within_nil
  | i + 1, st, h => by
    have hnext : i + (storeStep n i st).nMems ≤ n := by
      unfold storeStep
      split
      · omega
      · split
        · dsimp only; omega
        · split
          · dsimp only; omega
          · split
            · dsimp only; omega
            · split
              · omega
              · dsimp only; omega
    unfold storeAccesses
    refine within_cons.2 ⟨by omega, within_append.2 ⟨?_, storeAccesses_within hnext⟩⟩
    split
    · exact within_send (by omega) (by omega) (by omega) (by omega)
    · exact within_nil

theorem compareAccesses_within : ∀ {k i : Nat} {st : ComparePass}, i + k ≤ n → Within n (compareAccesses i k st)
  | 0, _, _, _ => within_nil
  | k + 1, i, st, h => by
    unfold compareAccesses
    refine within_cons.2 ⟨by omega, within_append.2 ⟨?_, compareAccesses_within (by omega)⟩⟩
    split
    · exact within_send (by omega) (by omega) (by omega) (by omega)
    · exact within_nil

theorem loopAccesses_within : ∀ {fuel : Nat} {l : List Insn}, Within n (loopAccesses n fuel l)
  | 0, _ => within_nil
  | fuel + 1, l => by
    unfold loopAccesses
    refine within_append.2 ⟨storeAccesses_within (by simp), ?_⟩
    split
    · exact loopAccesses_within
    · refine within_append.2 ⟨compareAccesses_within (by simp), ?_⟩
      split
      · exact loopAccesses_within
      · exact within_nil

theorem lastAccesses_within (p : Insn → Bool) (l : List Insn) : Within n (lastAccesses p n l) := by
  unfold lastAccesses
  split
  · rename_i i hi
    obtain ⟨hlt, -⟩ := List.findIdx?_eq_some_iff_getElem.1 hi
    rw [List.length_take] at hlt
    exact within_append.2 ⟨within_places (by omega), within_send (by omega) (by omega) (by omega) (by omega)⟩
  · exact within_places (by omega)

theorem frontAccesses_within : ∀ {k i : Nat} {l : List Insn}, i + k ≤ n → Within n (frontAccesses i k l)
  | 0, _, _, _ => within_nil
  | k + 1, i, l, h => by
    unfold frontAccesses
    refine within_cons.2 ⟨by omega, within_append.2 ⟨?_, frontAccesses_within (by omega)⟩⟩
    split
    · exact within_send (by omega) (by omega) (by omega) (by omega)
    · exact within_nil

theorem Within.mono (h : Within m a) (hmn : m ≤ n) : Within n a := fun i hi => by
  have := h i hi
  omega

/-- The shuffle stays in the packet it is given, unless that is empty. -/
theorem shuffleAccesses_within {l : List Insn} (fuel : Nat) (h : l ≠ []) :
    Within l.length (shuffleAccesses fuel l) := by
  have hpos := List.length_pos_of_ne_nil h
  have hle := shuffled_le l
  unfold shuffleAccesses
  refine within_cons.2 ⟨by omega, within_append.2 ⟨loopAccesses_within.mono hle, ?_⟩⟩
  split
  · exact within_nil
  · exact within_append.2 ⟨(lastAccesses_within _ _).mono hle, (lastAccesses_within _ _).mono hle⟩

/-- The split fills the places behind the packet, one for each compound jump. -/
theorem splitAccesses_within_iff {l : List Insn} (hl : l.length ≤ n) :
    Within n (splitAccesses l) ↔ l.length + l.countP (·.attrib .newcmpjump) ≤ n := by
  unfold splitAccesses
  simp only
  have hlen : ((l.filter (·.attrib .newcmpjump)).map part1Copy).length = l.countP (·.attrib .newcmpjump) := by
    rw [List.length_map, List.countP_eq_length_filter]
  rw [List.length_append, hlen]
  constructor
  · intro h
    by_contra hlt
    have hmem : (n : Int) ∈ places l.length (l.countP (·.attrib .newcmpjump)) :=
      List.mem_map.2 ⟨n - l.length, List.mem_range.2 (by omega), by omega⟩
    have := (within_append.1 (within_append.1 h).1).2 _ hmem
    omega
  · intro h
    exact within_append.2 ⟨within_append.2 ⟨within_places (by omega), within_places h⟩, frontAccesses_within (by omega)⟩

end Within

/-- `GetLastInsn`. -/
def getLastInsnAccesses (pkt : Packet) : List Int := [(pkt.insn.length : Int) - 1]

/-- `FillBnInstructionInfo`. -/
def infoAccesses (input : InsnInfo) : List Int :=
  if input.insnAddr % 4 ≠ 0 then []
  else getLastInsnAccesses input.pkt ++
    (if (input.insnNum : Int) = getLastInsn input.pkt then [] else [(input.insnNum : Int)]) ++
    if atLastInsn input then places 0 input.pkt.insn.length else []

/-- `FillBnInstructionTextTokens`: a duplex is printed as one, and `:endloop` after the last instruction. -/
def textAccesses (input : InsnInfo) : List Int :=
  if input.insnAddr % 4 ≠ 0 then []
  else
    let sub := input.pkt.insn[input.insnNum]?.any Insn.isSubInsn
    let insnNum := if sub then input.insnNum + 1 else input.insnNum
    (input.insnNum : Int) ::
      if sub && decide (input.pkt.insn.length ≤ insnNum) then [] -- `CHECK_LT`
      else (if sub then [(insnNum : Int)] else []) ++ getLastInsnAccesses input.pkt ++
        if (insnNum : Int) = getLastInsn input.pkt ∧ input.pkt.insn.any Insn.endsLoop = true then
          [getLastInsn input.pkt + 1]
        else []

/-- `FillBnInstructionLowLevelIL`: only at the first instruction of a packet. -/
def ilAccesses (input : InsnInfo) : List Int :=
  if input.insnAddr % 4 ≠ 0 ∨ input.insnNum ≠ 0 then []
  else prepareAccesses input.pkt.insn ++
    match preparePacketForLifting input.pkt.insn with
    | none => []
    | some is => places 0 is.length

/-- What lifting relies on: every access is to the array, and preparation leaves a packet. -/
structure LiftInBounds (pkt : Packet) : Prop where
  prepare : Within instructionsMax (prepareAccesses pkt.insn)
  prepared : ∃ is, preparePacketForLifting pkt.insn = some is ∧ 1 ≤ is.length ∧ is.length ≤ instructionsMax ∧
    ∀ i ∈ is, i.isExtender = false
  callbacks : ∀ pc addr, pc % 4 = 0 → addr % 4 = 0 → pc ≤ addr → addr < pc + pkt.encodPktSizeInBytes →
    Within instructionsMax (infoAccesses (findInstructionInPacket pc pkt addr)) ∧
      Within instructionsMax (textAccesses (findInstructionInPacket pc pkt addr)) ∧
        Within instructionsMax (ilAccesses (findInstructionInPacket pc pkt addr))

section Find

theorem findInsn_lt {addr : Nat} : ∀ {l : List Insn} {n at' : Nat}, at' ≤ addr → addr < at' + insnBytes l →
    n ≤ (findInsn addr n at' l).1 ∧ (findInsn addr n at' l).1 < n + l.length
  | [], n, at', h₁, h₂ => by
    have : insnBytes [] = 0 := rfl
    omega
  | i :: l, n, at', h₁, h₂ => by
    have hb : insnBytes (i :: l) = i.size + insnBytes l := by simp [insnBytes]
    unfold findInsn
    split
    · exact ⟨Nat.le_refl _, by simp⟩
    · rename_i h
      have ih := @findInsn_lt addr l (n + 1) (at' + i.size) (by omega) (by omega)
      rw [List.length_cons]
      omega

end Find

section LiftBounds

variable {T : DecodeTables} {words : List (BitVec 32)} {p : Packet}

theorem insnBytes_sameKind {l l' : List Insn} (h : List.Forall₂ Insn.SameKind l l') : insnBytes l' = insnBytes l := by
  induction h with
  | nil => rfl
  | @cons i j l l' h _ ih =>
    have hsize : j.size = i.size := by
      unfold Insn.size Insn.isSubInsn Insn.attrib
      rw [h.1]
    simp only [insnBytes, List.map_cons, List.sum_cons, hsize] at ih ⊢
    rw [ih]

theorem size_le_insnBytes (h : (decodePacket T words).outcome = .packet p) :
    p.encodPktSizeInBytes ≤ insnBytes p.insn := by
  obtain ⟨pre, last, rest, g, -, -, hg, -, hfin⟩ := decodePacket_packet h
  obtain ⟨hl, -, hsize⟩ := finish_packet hfin
  obtain ⟨-, -, l₁, l₂, -, -, -, h₁, h₂, hperm⟩ := hg.arranged words (.inl rfl) hl
  have hbytes : insnBytes p.insn = insnBytes (g.encoded words) := by
    rw [← insnBytes_sameKind (sameKind_trans h₁ h₂)]
    exact List.Perm.sum_nat (hperm.map Insn.size)
  have hcollected := hg.collected.bytes
  rw [hg.collected.read] at hcollected
  rw [hbytes, hsize, Gathered.encoded, insnBytes, List.map_append, List.sum_append]
  rw [insnBytes] at hcollected
  omega

/-- Behind the last instruction there is an endloop, or nothing. -/
theorem getLastInsn_of_any {pkt : Packet} {core c : List Insn} (hl : pkt.insn = core ++ c) (harr : Arranged true core c)
    (h : pkt.insn.any Insn.endsLoop = true) : getLastInsn pkt + 1 = (pkt.insn.length : Int) - 1 := by
  have hlast : pkt.insn.getLast?.any Insn.endsLoop = true := by
    rcases harr.loop with rfl | ⟨e, rfl, he⟩
    · obtain ⟨i, hi, he⟩ := List.any_eq_true.1 h
      rw [hl, List.append_nil] at hi
      rw [harr.noLoop i hi] at he
      cases he
    · rw [hl, List.getLast?_concat, Option.any_some, he]
  rw [getLastInsn, if_pos hlast]
  omega

theorem part1Copy_isExtender (i : Insn) : (part1Copy i).isExtender = i.isExtender := rfl

/-- The callbacks stay in the array, the packet being one that preparation keeps in it. -/
theorem callbacks_within (h : (decodePacket T words).outcome = .packet p) (hlen : p.insn.length ≤ instructionsMax)
    (hprepare : Within instructionsMax (prepareAccesses p.insn))
    (hmax : ∀ is, preparePacketForLifting p.insn = some is → is.length ≤ instructionsMax) {pc addr : Nat}
      (hpc : pc ≤ addr)
    (haddr : addr < pc + p.encodPktSizeInBytes) :
    Within instructionsMax (infoAccesses (findInstructionInPacket pc p addr)) ∧
      Within instructionsMax (textAccesses (findInstructionInPacket pc p addr)) ∧
        Within instructionsMax (ilAccesses (findInstructionInPacket pc p addr)) := by
  obtain ⟨core, c, hl, harr⟩ := decodePacket_arranged h
  have hbytes := size_le_insnBytes h
  have hnum : (findInsn addr 0 pc p.insn).1 < p.insn.length := by
    have := findInsn_lt (l := p.insn) (n := 0) hpc (by omega)
    omega
  have hlast : Within instructionsMax (getLastInsnAccesses p) := within_cons.2 ⟨by omega, within_nil⟩
  have hinsn : Within instructionsMax [((findInsn addr 0 pc p.insn).1 : Int)] := within_cons.2 ⟨by omega, within_nil⟩
  have hall : Within instructionsMax (places 0 p.insn.length) := within_places (by omega)
  refine ⟨?_, ?_, ?_⟩
  · unfold infoAccesses findInstructionInPacket
    split
    · exact within_nil
    · refine within_append.2 ⟨within_append.2 ⟨hlast, ?_⟩, ?_⟩
      · split
        · exact within_nil
        · exact hinsn
      · split
        · exact hall
        · exact within_nil
  · have hend : Within instructionsMax (if p.insn.any Insn.endsLoop = true then [getLastInsn p + 1] else []) := by
      split
      · rename_i hany
        have := getLastInsn_of_any hl harr hany
        exact within_cons.2 ⟨by omega, within_nil⟩
      · exact within_nil
    have hloop : ∀ n : Nat, Within instructionsMax
        (if (n : Int) = getLastInsn p ∧ p.insn.any Insn.endsLoop = true then [getLastInsn p + 1] else []) := fun n => by
      split
      · rename_i hn
        rwa [if_pos hn.2] at hend
      · exact within_nil
    unfold textAccesses findInstructionInPacket
    generalize (findInsn addr 0 pc p.insn).1 = n at *
    dsimp only
    split
    · exact within_nil
    · refine within_cons.2 ⟨by omega, ?_⟩
      cases p.insn[n]?.any Insn.isSubInsn with
      | false => exact within_append.2 ⟨within_append.2 ⟨within_nil, hlast⟩, hloop n⟩
      | true =>
        simp only [Bool.true_and, decide_eq_true_eq, if_true]
        split
        · exact within_nil
        · exact within_append.2 ⟨within_append.2 ⟨within_cons.2 ⟨by omega, within_nil⟩, hlast⟩, hloop (n + 1)⟩
  · unfold ilAccesses findInstructionInPacket
    split
    · exact within_nil
    · refine within_append.2 ⟨hprepare, ?_⟩
      split
      · exact within_nil
      · rename_i is his
        exact within_places (by have := hmax is his; omega)

/-- Preparation stays in the array exactly when the packet is not a lone extender and has room for the compare
halves. -/
theorem prepareAccesses_within_iff (h : (decodePacket T words).outcome = .packet p)
    (hlen : p.insn.length ≤ instructionsMax) : Within instructionsMax (prepareAccesses p.insn) ↔
      (∃ i ∈ p.insn, i.isExtender = false) ∧
        p.insn.countP (fun i => !i.isExtender) + p.insn.countP (·.attrib .newcmpjump) ≤ instructionsMax := by
  obtain ⟨core, c, hl, harr⟩ := decodePacket_arranged h
  have hremove : removeExtenders p.insn = p.insn.filter fun i => !i.isExtender := by
    rw [hl]
    exact removeExtenders_eq harr.followed
  have hcount : p.insn.countP (fun i => !i.isExtender) ≤ p.insn.length := List.countP_le_length
  obtain ⟨core', hshuffle, hperm, -⟩ := shuffle_removed harr (by rw [← hl]; omega)
  rw [← hl] at hshuffle hperm
  have hlen' : (core' ++ c).length ≤ instructionsMax := by
    rw [hperm.length_eq, ← List.countP_eq_length_filter]
    omega
  have hshuffled : Within instructionsMax (shuffleAccesses shuffleFuel (removeExtenders p.insn)) ↔
      ∃ i ∈ p.insn, i.isExtender = false := by
    constructor
    · intro hs
      by_contra hno
      have hnil : removeExtenders p.insn = [] := by
        rw [hremove]
        refine List.filter_eq_nil_iff.2 fun i hi he => hno ⟨i, hi, by simpa using he⟩
      rw [hnil] at hs
      have := (within_cons.1 hs).1.1
      simp at this
    · rintro ⟨i, hi, he⟩
      have hne : removeExtenders p.insn ≠ [] := by
        rw [hremove]
        exact List.ne_nil_of_mem (List.mem_filter.2 ⟨hi, by rw [he]; rfl⟩)
      refine (shuffleAccesses_within shuffleFuel hne).mono ?_
      rw [hremove, ← List.countP_eq_length_filter]
      omega
  have hrem := (removeAccesses_within p.insn 0).mono (n := instructionsMax) (by omega)
  unfold prepareAccesses
  rw [hshuffle]
  simp only [within_append]
  rw [splitAccesses_within_iff hlen', countP_shuffled hperm, hshuffled]
  tauto

/-- **Every access is in the array, and preparation leaves a packet, exactly when the packet is not a lone extender and
has room for the compare halves.** -/
theorem liftInBounds_iff (T : DecodeTables) (words : List (BitVec 32)) (p : Packet)
    (h : (decodePacket T words).outcome = .packet p) (hlen : p.insn.length ≤ instructionsMax) :
    LiftInBounds p ↔ (∃ i ∈ p.insn, i.isExtender = false) ∧
      p.insn.countP (fun i => !i.isExtender) + p.insn.countP (·.attrib .newcmpjump) ≤ instructionsMax := by
  rw [← prepareAccesses_within_iff h hlen]
  refine ⟨fun hb => hb.prepare, fun hwithin => ?_⟩
  obtain ⟨⟨i, hi, he⟩, hfit⟩ := (prepareAccesses_within_iff h hlen).1 hwithin
  obtain ⟨core, c, hl, harr⟩ := decodePacket_arranged h
  refine ⟨hwithin, ?_, fun pc addr _ _ hpc haddr =>
    callbacks_within h hlen hwithin (fun is => length_preparePacket) hpc haddr⟩
  rw [hl] at hfit
  obtain ⟨halves, rest, heq, hr, -⟩ := preparePacket_core harr hfit
  rw [← hl] at heq hr
  refine ⟨halves ++ rest, heq, ?_, length_preparePacket heq, fun j hj => ?_⟩
  · have hmem : i ∈ rest := hr.rest_perm.mem_iff.2 (List.mem_filter.2 ⟨hi, by rw [he]; rfl⟩)
    have := List.length_pos_of_mem hmem
    rw [List.length_append]
    omega
  · rcases List.mem_append.1 hj with hj | hj
    · obtain ⟨k, hk, rfl⟩ := List.mem_map.1 (hr.halves_perm.mem_iff.1 hj)
      rw [part1Copy_isExtender, extender_not (.inr (.inr (.inl (List.mem_filter.1 hk).2)))]
    · simpa using (List.mem_filter.1 (hr.rest_perm.mem_iff.1 hj)).2

end LiftBounds

/-- `immext(#0)`, `p0=cmp.eq(r3,#0); if (p0.new) jump:t #4` and `nop`. -/
def compoundTables : DecodeTables :=
  wordTables [(0, Opcodes.a4Ext.insn [] [0] Opcodes.a4Ext_fits),
    (0x10032002, Opcodes.j4CmpeqiTp0JumpT.insn [3] [4, 0] (by decide)),
    (0x7f000000, Opcodes.a2Nop.insn [] [] Opcodes.a2Nop_fits)]

/-- An extender, the compound jump that it extends and a `nop` are lifted within the array. -/
theorem liftInBounds_iff_compound : ∃ p,
    (decodePacket compoundTables [0x00004000, 0x10036002, 0x7f00c000]).outcome = .packet p ∧
    p.insn.length ≤ instructionsMax ∧ p.insn.countP (·.isExtender) = 1 ∧ p.insn.countP (·.attrib .newcmpjump) = 1 ∧
    LiftInBounds p := by
  refine ⟨_, rfl, by decide +kernel, by decide +kernel, by decide +kernel, ?_⟩
  refine (liftInBounds_iff compoundTables [0x00004000, 0x10036002, 0x7f00c000] _ rfl (by decide +kernel)).2
    ⟨?_, by decide +kernel⟩
  exact ⟨Opcodes.a2Nop.insn [] [] Opcodes.a2Nop_fits,
    List.mem_cons_of_mem _ (List.mem_cons_of_mem _ List.mem_cons_self), by decide⟩

/-- A packet that is an extender is read before its start, one of four compound jumps past the end of the array. -/
theorem lift_out_of_bounds :
    (∃ p, (decodePacket nopTables [0x0000c000]).outcome = .packet p ∧ p.insn.length ≤ instructionsMax ∧
      (-1) ∈ prepareAccesses p.insn ∧ ¬ LiftInBounds p) ∧
    ∃ p, (decodePacket compoundTables [0x10036002, 0x10036002, 0x10036002, 0x1003e002]).outcome = .packet p ∧
      p.insn.length ≤ instructionsMax ∧ (instructionsMax : Int) ∈ prepareAccesses p.insn ∧ ¬ LiftInBounds p := by
  refine ⟨⟨_, rfl, by decide +kernel, ?_⟩, _, rfl, by decide +kernel, ?_⟩
  · rw [and_iff_left_of_imp fun hmem hb => absurd (hb.prepare _ hmem).1 (by decide)]
    decide +kernel
  · rw [and_iff_left_of_imp fun hmem hb => absurd (hb.prepare _ hmem).2 (by decide)]
    decide +kernel

end Hex
