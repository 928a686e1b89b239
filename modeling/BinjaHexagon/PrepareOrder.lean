import BinjaHexagon.DecodeSafe
import BinjaHexagon.ShufflePasses
/-!
# PrepareOrder — what `PreparePacketForLifting` rearranges

Every packet is prepared, and keeps its instructions.  The memory accesses and the branches keep their order where the
packet gives the passes no occasion to do what their comments rule out.
-/
namespace Hex

namespace Insn

/-- A user of a `.new` value. -/
def isNewUser (i : Insn) : Bool := i.attrib .dotnewvalue

/-- A `.new` user that is no store. -/
def isNewBranch (i : Insn) : Bool := i.isNewUser && !i.attrib .store

end Insn

/-- A store stands before an instruction that it is sent behind. -/
def movesStore : List Insn → Bool
  | [] => false
  | x :: l => x.attrib .store && l.any Insn.isOther || movesStore l

/-- A load stands before an instruction that stores are sent behind. -/
def loadAhead : List Insn → Bool
  | [] => false
  | x :: l => x.attrib .load && l.any Insn.isOther || loadAhead l

/-- What stands behind the last instruction that stores are sent behind. -/
def afterOther : List Insn → List Insn
  | [] => []
  | x :: l => if l.any Insn.isOther then afterOther l else if x.isOther then l else x :: l

/-- Behind a memory access there are only memory accesses. -/
def MemLast (l : List Insn) : Prop := ∃ a b, l = a ++ b ∧ (∀ x ∈ a, x.isMem = false) ∧ ∀ x ∈ b, x.isMem = true

/-- A store that is sent back has no load to pass, and behind the last instruction that it passes the `.new` users stand
before the memory accesses. -/
def StoresPass : List Insn → Prop
  | [] => True
  | x :: l =>
    (x.attrib .store = true → l.any Insn.isOther = true → loadAhead l = false ∧ MemLast (afterOther l)) ∧ StoresPass l

section StorePass

theorem storeScan_of_not_any {l : List Insn} (h : l.any Insn.isOther = false) : (storeScan l).insn = l := by
  refine storeScan_of_settled ?_
  induction l with
  | nil => trivial
  | cons x l ih =>
    rw [List.any_cons, Bool.or_eq_false_iff] at h
    exact ⟨fun _ => h.2, ih h.2⟩

theorem isMem_of_store {x : Insn} (h : x.attrib .store = true) : x.isMem = true := by
  rw [Insn.isMem, h, Bool.true_or]

theorem not_other_of_isMem {x : Insn} (h : x.isMem = true) : x.isOther = false := by
  rw [Insn.isOther, h]
  rfl

theorem storeScan_lands {x : Insn} {l a b : List Insn} (hflag : l.any Insn.isOther = true)
    (hx : x.attrib .store = true) (hl : (storeScan l).insn = a ++ b) (ha : ∀ x ∈ a, x.isMem = false)
    (hb : ∀ x ∈ b, x.isMem = true) : (storeScan (x :: l)).insn = a ++ x :: b := by
  have hmems : (storeScan l).nMems = b.length := by
    rw [storeScan_nMems, ← (storeScan_perm l).countP_eq, hl, List.countP_append, List.countP_eq_zero.2
      (fun y hy => by rw [ha y hy]; decide), List.countP_eq_length.2 hb, Nat.zero_add]
  have htake : (storeScan l).insn.length - (storeScan l).nMems = a.length := by
    rw [hmems, hl, List.length_append]
    omega
  rw [storeScan]
  simp only [storeScan_flag, hflag, hx, Bool.and_self, if_true, htake]
  rw [hl, List.take_left, List.drop_left]

/-- Where no load stands ahead, the pass puts the memory accesses last. -/
theorem storeScan_memLast : ∀ {l : List Insn}, loadAhead l = false → MemLast (afterOther l) →
    MemLast (storeScan l).insn
  | [], _, h => h
  | x :: l, hload, hafter => by
    rw [loadAhead, Bool.or_eq_false_iff] at hload
    rw [afterOther] at hafter
    by_cases hany : l.any Insn.isOther = true
    · rw [if_pos hany] at hafter
      obtain ⟨a, b, hl, ha, hb⟩ := storeScan_memLast hload.2 hafter
      have hnl : x.attrib .load = false := by
        have := hload.1
        rwa [hany, Bool.and_true] at this
      cases hx : x.attrib .store with
      | true =>
        refine ⟨a, x :: b, storeScan_lands hany hx hl ha hb, ha, fun y hy => ?_⟩
        rcases List.mem_cons.1 hy with rfl | hy
        · exact isMem_of_store hx
        · exact hb y hy
      | false =>
        refine ⟨x :: a, b, ?_, fun y hy => ?_, hb⟩
        · rw [(storeScan_keep (by rw [hx, Bool.and_false]; decide)).1, hl, List.cons_append]
        · rcases List.mem_cons.1 hy with rfl | hy
          · rw [Insn.isMem, hx, hnl]; rfl
          · exact ha y hy
    · rw [if_neg hany] at hafter
      rw [Bool.not_eq_true] at hany
      have hl := storeScan_of_not_any hany
      rw [(storeScan_keep (by rw [storeScan_flag, hany, Bool.false_and]; decide)).1, hl]
      split at hafter
      · rename_i hx
        obtain ⟨a, b, rfl, ha, hb⟩ := hafter
        refine ⟨x :: a, b, rfl, fun y hy => ?_, hb⟩
        rcases List.mem_cons.1 hy with rfl | hy
        · cases hm : y.isMem
          · rfl
          · rw [not_other_of_isMem hm] at hx; cases hx
        · exact ha y hy
      · exact hafter

/-- **Where stores pass no memory access, the pass keeps the accesses in order**, and is done in one round. -/
theorem storeScan_pass : ∀ {l : List Insn}, StoresPass l →
    (storeScan l).insn.filter Insn.isMem = l.filter Insn.isMem ∧ Settled (storeScan l).insn
  | [], _ => ⟨rfl, trivial⟩
  | x :: l, ⟨hx, hl⟩ => by
    obtain ⟨hfilter, hset⟩ := storeScan_pass hl
    by_cases hany : x.attrib .store = true ∧ l.any Insn.isOther = true
    · obtain ⟨hload, hafter⟩ := hx hany.1 hany.2
      obtain ⟨a, b, hab, ha, hb⟩ := storeScan_memLast hload hafter
      have hmem := isMem_of_store hany.1
      have hfa : a.filter Insn.isMem = [] := List.filter_eq_nil_iff.2 fun y hy => by rw [ha y hy]; decide
      rw [storeScan_lands hany.2 hany.1 hab ha hb, List.filter_cons_of_pos hmem, ← hfilter, hab, List.filter_append,
        List.filter_append, hfa, List.filter_cons_of_pos hmem]
      refine ⟨rfl, ?_⟩
      have htail : ∀ {m : List Insn}, (∀ y ∈ m, y.isMem = true) → Settled m := by
        intro m hm
        induction m with
        | nil => trivial
        | cons y m ih =>
          have hm' := List.forall_mem_cons.1 hm
          exact ⟨fun _ => List.any_eq_false.2 fun z hz => by rw [not_other_of_isMem (hm'.2 z hz)]; decide, ih hm'.2⟩
      have hxb : Settled (x :: b) := htail (List.forall_mem_cons.2 ⟨hmem, hb⟩)
      clear hab hfa
      induction a with
      | nil => exact hxb
      | cons y a ih =>
        have ha' := List.forall_mem_cons.1 ha
        refine ⟨fun hs => absurd (isMem_of_store hs) (by rw [ha'.1]; decide), ih ha'.2⟩
    · have hkeep := (storeScan_keep (x := x) (l := l) (fun h => hany (by
        rw [storeScan_flag, Bool.and_eq_true] at h
        exact ⟨h.2, h.1⟩))).1
      rw [hkeep, List.filter_cons, List.filter_cons, hfilter]
      refine ⟨rfl, fun hs => ?_, hset⟩
      have hno : l.any Insn.isOther = false := by
        cases h : l.any Insn.isOther
        · rfl
        · exact absurd ⟨hs, h⟩ hany
      rw [storeScan_of_not_any hno]
      exact hno

/-- What `decode_shuffle_for_execution` sends to the very end: the first `.new` user; where stores are sent back, the
first that is no store. -/
def sentToEnd (l : List Insn) : Option Insn :=
  if movesStore l then (l.find? Insn.isNewBranch).or (l.find? Insn.isNewUser)
  else l.find? Insn.isNewUser

theorem movesStore_eq_false : ∀ {l : List Insn}, movesStore l = false ↔ Settled l
  | [] => ⟨fun _ => trivial, fun _ => rfl⟩
  | x :: l => by
    rw [movesStore, Settled, Bool.or_eq_false_iff, movesStore_eq_false]
    refine and_congr_left fun _ => ?_
    cases x.attrib .store <;> simp

theorem isNewBranch_not_mem {x : Insn} (h : x.isNewBranch = true) : x.isMem = false := by
  simp only [Insn.isNewBranch, Insn.isNewUser, Bool.and_eq_true, Bool.not_eq_true'] at h
  rw [Insn.isMem, h.2, Bool.false_or]
  cases hl : x.attrib .load
  · rfl
  · rw [Insn.load_lacks hl] at h
    cases h.1

/-- Where a store is sent back, it and every other end behind the `.new` users that are none. -/
theorem storeScan_newAhead : ∀ {l : List Insn}, StoresPass l → movesStore l = true →
    (storeScan l).insn.Pairwise fun x y => x.attrib .store = true → y.isNewBranch = false
  | x :: l, ⟨hx, hl⟩, hmoves => by
    by_cases hany : x.attrib .store = true ∧ l.any Insn.isOther = true
    · obtain ⟨hload, hafter⟩ := hx hany.1 hany.2
      obtain ⟨a, b, hab, ha, hb⟩ := storeScan_memLast hload hafter
      rw [storeScan_lands hany.2 hany.1 hab ha hb]
      have hmem : ∀ y ∈ x :: b, y.isNewBranch = false := fun y hy => by
        cases hn : y.isNewBranch
        · rfl
        · have := isNewBranch_not_mem hn
          rcases List.mem_cons.1 hy with rfl | hy
          · rw [isMem_of_store hany.1] at this; cases this
          · rw [hb y hy] at this; cases this
      refine List.pairwise_append.2 ⟨?_, ?_, fun y _ z hz _ => hmem z hz⟩
      · exact List.pairwise_of_forall_mem_list fun y hy _ _ hs =>
          absurd (isMem_of_store hs) (by rw [ha y hy]; decide)
      · exact List.pairwise_of_forall_mem_list fun _ _ z hz _ => hmem z hz
    · have hm : movesStore l = true := by
        rw [movesStore, Bool.or_eq_true, Bool.and_eq_true] at hmoves
        exact hmoves.resolve_left hany
      have hother : l.any Insn.isOther = true := by
        cases h : l.any Insn.isOther
        · have hs : Settled l := by
            have := storeScan_pass hl
            rw [storeScan_of_not_any h] at this
            exact this.2
          rw [movesStore_eq_false.2 hs] at hm
          cases hm
        · rfl
      have hstore : x.attrib .store = false := by
        cases hs : x.attrib .store
        · rfl
        · exact absurd ⟨hs, hother⟩ hany
      rw [(storeScan_keep (by rw [hstore, Bool.and_false]; decide)).1]
      exact List.pairwise_cons.2 ⟨fun _ _ hs => absurd hs (by rw [hstore]; decide), storeScan_newAhead hl hm⟩

theorem find?_eq_of_filter_eq {p : Insn → Bool} {l m : List Insn} (h : l.filter p = m.filter p) :
    l.find? p = m.find? p := by
  rw [← List.head?_filter, ← List.head?_filter, h]

/-- Where no store stands before a `.new` user that is none, such a user is the first, if there is one. -/
theorem find?_new : ∀ {l : List Insn}, (l.Pairwise fun x y => x.attrib .store = true → y.isNewBranch = false) →
    l.find? Insn.isNewUser = (l.find? Insn.isNewBranch).or (l.find? Insn.isNewUser)
  | [], _ => rfl
  | x :: l, h => by
    obtain ⟨hx, hl⟩ := List.pairwise_cons.1 h
    have ih := find?_new hl
    cases hn : x.isNewUser with
    | false =>
      have hb : x.isNewBranch = false := by rw [Insn.isNewBranch, hn]; rfl
      rw [List.find?_cons_of_neg (by rw [hn]; decide), List.find?_cons_of_neg (by rw [hb]; decide)]
      exact ih
    | true =>
      rw [List.find?_cons_of_pos hn]
      cases hs : x.attrib .store with
      | true =>
        have hb : ¬ x.isNewBranch = true := by rw [Insn.isNewBranch, hs, Bool.not_true, Bool.and_false]; decide
        have hnone : l.find? Insn.isNewBranch = none := List.find?_eq_none.2 fun y hy => by rw [hx y hy hs]; decide
        rw [List.find?_cons_of_neg hb, hnone, Option.none_or]
      | false =>
        rw [List.find?_cons_of_pos (show x.isNewBranch = true by rw [Insn.isNewBranch, hn, hs]; rfl), Option.some_or]

/-- **The `.new` user that is first after the rounds is the one that `sentToEnd` names.** -/
theorem Rounds.find?_new {core core' : List Insn} (h : Rounds core core') (hpass : StoresPass core) :
    core'.find? Insn.isNewUser = sentToEnd core := by
  have hcompare : ∀ x : Insn, x.isNewUser = true → x.isCompare = false := fun x hx => by
    cases hc : x.isCompare
    · rfl
    · rw [Insn.isNewUser, Insn.compare_lacks hc (by decide)] at hx; cases hx
  obtain ⟨hmem, hset⟩ := storeScan_pass hpass
  rw [find?_eq_of_filter_eq (h.stores hset _ hcompare), sentToEnd]
  split
  · rename_i hmoves
    have hbranch : (storeScan core).insn.find? Insn.isNewBranch = core.find? Insn.isNewBranch :=
      find?_eq_of_filter_eq (filter_storeScan (fun x hx => by
        simp only [Insn.isNewBranch, Bool.and_eq_true, Bool.not_eq_true'] at hx
        exact hx.2) core)
    rw [Hex.find?_new (storeScan_newAhead hpass hmoves), hbranch]
    cases hb : core.find? Insn.isNewBranch with
    | some x => rfl
    | none =>
      rw [Option.none_or, Option.none_or]
      have hnew : ∀ x ∈ core, x.isNewUser = true → x.isMem = true := fun x hx hn => by
        have := List.find?_eq_none.1 hb x hx
        rw [Insn.isNewBranch, hn, Bool.true_and, Bool.not_eq_true, Bool.not_eq_false'] at this
        exact isMem_of_store this
      refine find?_eq_of_filter_eq ?_
      have hsub : ∀ l : List Insn, (∀ x ∈ l, x ∈ core) →
          l.filter Insn.isNewUser = (l.filter Insn.isMem).filter Insn.isNewUser := fun l hl => by
        rw [List.filter_filter]
        refine List.filter_congr fun x hx => ?_
        cases hn : x.isNewUser
        · rfl
        · rw [hnew x (hl x hx) hn]; rfl
      rw [hsub _ fun x hx => (storeScan_perm core).mem_iff.1 hx, hsub core fun x hx => hx, hmem]
  · rename_i hmoves
    rw [Bool.not_eq_true] at hmoves
    rw [storeScan_of_settled (movesStore_eq_false.1 hmoves)]

end StorePass

section LastMoves

theorem split_first {p : Insn → Bool} : ∀ {a a' : List Insn} {x x' : Insn} {b b' : List Insn},
    a ++ x :: b = a' ++ x' :: b' → (∀ y ∈ a, p y = false) → (∀ y ∈ a', p y = false) → p x = true → p x' = true →
      a = a' ∧ x = x' ∧ b = b'
  | [], [], _, _, _, _, h, _, _, _, _ => ⟨rfl, (List.cons.inj h).1, (List.cons.inj h).2⟩
  | [], y :: a', _, _, _, _, h, _, ha', hx, _ => by
    obtain ⟨rfl, -⟩ := List.cons.inj h
    exact absurd hx (by rw [ha' _ List.mem_cons_self]; decide)
  | y :: a, [], _, _, _, _, h, ha, _, _, hx' => by
    obtain ⟨rfl, -⟩ := List.cons.inj h
    exact absurd hx' (by rw [ha _ List.mem_cons_self]; decide)
  | y :: a, y' :: a', _, _, _, _, h, ha, ha', hx, hx' => by
    obtain ⟨hy, h⟩ := List.cons.inj h
    obtain ⟨rfl, rfl, rfl⟩ := split_first h (List.forall_mem_cons.1 ha).2 (List.forall_mem_cons.1 ha').2 hx hx'
    exact ⟨by rw [hy], rfl, rfl⟩

theorem findIdx?_first {p : Insn → Bool} {a : List Insn} {x : Insn} (b : List Insn) (ha : ∀ y ∈ a, p y = false)
    (hx : p x = true) : (a ++ x :: b).findIdx? p = some a.length := by
  rw [List.findIdx?_append, List.findIdx?_eq_none_iff.2 ha, Option.none_or, List.findIdx?_cons, if_pos hx,
    Option.map_some, Nat.zero_add]

/-- The first instruction that `p` holds of goes to the end of what is shuffled. -/
theorem sendFirstToEnd_core (p : Insn → Bool) (core c : List Insn) :
    ∃ core', sendFirstToEnd p core.length (core ++ c) = core' ++ c ∧
      (core.find? p = none ∧ core' = core ∨ ∃ a x b, core = a ++ x :: b ∧ (∀ y ∈ a, p y = false) ∧ p x = true ∧
        core.find? p = some x ∧ core' = a ++ b ++ [x]) := by
  have htake : (core ++ c).take (core.length - 1) = core.dropLast := by
    rw [List.take_append_of_le_length (Nat.sub_le _ _), List.dropLast_eq_take]
  unfold sendFirstToEnd
  rw [htake]
  cases hfind : core.find? p with
  | none =>
    have hnone : core.dropLast.findIdx? p = none := List.findIdx?_eq_none_iff.2 fun y hy => by
      simpa using List.find?_eq_none.1 hfind y (List.dropLast_subset core hy)
    rw [hnone]
    exact ⟨core, rfl, .inl ⟨rfl, rfl⟩⟩
  | some x =>
    obtain ⟨hx, a, b, rfl, ha⟩ := List.find?_eq_some_iff_append.1 hfind
    have ha : ∀ y ∈ a, p y = false := fun y hy => by simpa using ha y hy
    refine ⟨a ++ b ++ [x], ?_, .inr ⟨a, x, b, rfl, ha, hx, rfl, rfl⟩⟩
    rcases List.eq_nil_or_concat b with rfl | ⟨b, z, rfl⟩
    · rw [List.dropLast_concat, List.findIdx?_eq_none_iff.2 ha, List.append_nil]
    · rw [List.concat_eq_append, ← List.cons_append, ← List.append_assoc, List.dropLast_concat, findIdx?_first b ha hx]
      have hlen : (a ++ x :: b ++ [z]).length - 1 = a.length + (b ++ [z]).length := by
        simp only [List.length_append, List.length_cons, List.length_nil]
        omega
      have hsend := sendInsnTo_append a (b ++ [z]) c x
      simp only [hlen]
      simpa using hsend

/-- Where it goes past nothing that `q` keeps in order, `q` keeps its order. -/
theorem filter_sent {q : Insn → Bool} {a b : List Insn} {x : Insn} (h : q x = true → b.filter q = []) :
    (a ++ b ++ [x]).filter q = (a ++ x :: b).filter q := by
  cases hx : q x with
  | true => simp [hx, h hx]
  | false => simp [hx]

end LastMoves

/-- What the packet must not hold for the memory accesses and the branches to keep their order. -/
structure OrderSafe (l : List Insn) : Prop where
  stores : StoresPass l
  /-- No memory access stands behind a store that is sent to the end. -/
  newStore : ∀ x ∈ sentToEnd l, x.attrib .store = true → ∀ a b, l.filter Insn.isMem = a ++ x :: b →
    (∀ y ∈ a, y.isNewUser = false) → b = []
  /-- No branch but an `rte` stands behind a branch that is sent to the end. -/
  newBranch : ∀ x ∈ sentToEnd l, x.canJump = true → ∀ a b, l.filter Insn.canJump = a ++ x :: b →
    (∀ y ∈ a, y.isNewUser = false) → ∀ y ∈ b, y.opcode.tag = .j2Rte
  /-- No branch stands behind an `rte`. -/
  rte : ∀ a r b, l.filter Insn.canJump = a ++ r :: b → r.opcode.tag = .j2Rte → b = []

section Shuffle

variable {core core' c : List Insn}

theorem isMem_not_compare {x : Insn} (h : x.isMem = true) : x.isCompare = false := by
  cases hc : x.isCompare
  · rfl
  · rw [Insn.isMem, Insn.compare_lacks hc (by decide), Insn.compare_lacks hc (by decide)] at h
    cases h

theorem rte_system {x : Insn} (h : (x.opcode.tag == .j2Rte) = true) : x.opcode.isSystem = true := by
  rw [OpcodeRow.isSystem, h]
  simp

theorem rte_not_mem {x : Insn} (h : (x.opcode.tag == .j2Rte) = true) : x.isMem = false := by
  rw [Insn.isMem, Insn.system_lacks (rte_system h) (by decide), Insn.system_lacks (rte_system h) (by decide)]
  rfl

theorem rte_canJump {x : Insn} (h : (x.opcode.tag == .j2Rte) = true) : x.canJump = true := by
  rw [Insn.canJump, beq_iff_eq.1 h]
  simp

/-- The two last moves keep the memory accesses in order. -/
theorem filter_isMem_sent {x : Insn} {a b : List Insn} (hnew : x.isNewUser = true)
    (hx : x.attrib .store = true → b.filter Insn.isMem = []) :
    (a ++ b ++ [x]).filter Insn.isMem = (a ++ x :: b).filter Insn.isMem := by
  refine filter_sent fun hm => hx ?_
  rw [Insn.isMem, Bool.or_eq_true] at hm
  refine hm.resolve_right fun hl => ?_
  rw [Insn.isNewUser, Insn.load_lacks hl] at hnew
  cases hnew

/-- What one of the last moves makes of a list. -/
def Sent (p : Insn → Bool) (l l' : List Insn) : Prop :=
  l.find? p = none ∧ l' = l ∨ ∃ a x b, l = a ++ x :: b ∧ (∀ y ∈ a, p y = false) ∧ p x = true ∧
    l.find? p = some x ∧ l' = a ++ b ++ [x]

theorem Sent.perm {p : Insn → Bool} {l l' : List Insn} (h : Sent p l l') : l'.Perm l := by
  rcases h with ⟨-, rfl⟩ | ⟨a, x, b, rfl, -, -, -, rfl⟩
  · exact .rfl
  · rw [List.append_assoc]
    exact (@List.perm_append_comm _ b [x]).append_left a

/-- **The last moves keep the order of memory accesses.** -/
theorem OrderSafe.mem_order (h : OrderSafe core) {l l₁ l₂ : List Insn} (hr : Rounds core l)
    (h₁ : Sent Insn.isNewUser l l₁) (h₂ : Sent (fun x => x.opcode.tag == .j2Rte) l₁ l₂) :
    l₂.filter Insn.isMem = core.filter Insn.isMem := by
  obtain ⟨hmem, hset⟩ := storeScan_pass h.stores
  have hl : l.filter Insn.isMem = core.filter Insn.isMem := by
    rw [hr.stores hset _ fun x => isMem_not_compare, hmem]
  have hl₁ : l₁.filter Insn.isMem = l.filter Insn.isMem := by
    rcases h₁ with ⟨-, rfl⟩ | ⟨a, x, b, rfl, ha, hx, hfind, rfl⟩
    · rfl
    · refine filter_isMem_sent hx fun hs => ?_
      refine h.newStore x (by rw [← hr.find?_new h.stores]; exact hfind) hs (a.filter Insn.isMem) _ ?_
        fun y hy => ha y (List.mem_of_mem_filter hy)
      rw [← hl, List.filter_append, List.filter_cons_of_pos (isMem_of_store hs)]
  have hl₂ : l₂.filter Insn.isMem = l₁.filter Insn.isMem := by
    rcases h₂ with ⟨-, rfl⟩ | ⟨a, x, b, rfl, -, hx, -, rfl⟩
    · rfl
    · exact filter_sent fun hm => absurd hm (by rw [rte_not_mem hx]; decide)
  rw [hl₂, hl₁, hl]

/-- **The last moves keep the order of branches.** -/
theorem OrderSafe.branch_order (h : OrderSafe core) {l l₁ l₂ : List Insn} (hr : Rounds core l)
    (h₁ : Sent Insn.isNewUser l l₁) (h₂ : Sent (fun x => x.opcode.tag == .j2Rte) l₁ l₂) :
    l₂.filter Insn.canJump = core.filter Insn.canJump := by
  have hl : l.filter Insn.canJump = core.filter Insn.canJump :=
    hr.order _ (fun x hx => (Insn.canJump_not hx).1) fun x hx => (Insn.canJump_not hx).2
  have hlast : ∀ {m : List Insn}, m.filter Insn.canJump = core.filter Insn.canJump →
      Sent (fun x => x.opcode.tag == .j2Rte) m l₂ → l₂.filter Insn.canJump = core.filter Insn.canJump := by
    rintro m hm (⟨-, rfl⟩ | ⟨a, r, b, rfl, -, hr, -, rfl⟩)
    · exact hm
    · rw [← hm]
      refine filter_sent fun hj => h.rte (a.filter Insn.canJump) r _ ?_ (beq_iff_eq.1 hr)
      rw [← hm, List.filter_append, List.filter_cons_of_pos hj]
  rcases h₁ with ⟨-, rfl⟩ | ⟨a, x, b, rfl, ha, hx, hfind, rfl⟩
  · exact hlast hl h₂
  · cases hj : x.canJump with
    | false => exact hlast (by rw [filter_sent fun h => absurd h (by rw [hj]; decide), hl]) h₂
    | true =>
      have hcore : core.filter Insn.canJump = a.filter Insn.canJump ++ x :: b.filter Insn.canJump := by
        rw [← hl, List.filter_append, List.filter_cons_of_pos hj]
      have hrte := h.newBranch x (by rw [← hr.find?_new h.stores]; exact hfind) hj _ _ hcore
        fun y hy => ha y (List.mem_of_mem_filter hy)
      cases hb : b.filter Insn.canJump with
      | nil => exact hlast (by rw [filter_sent fun _ => hb, hl]) h₂
      | cons r b' =>
        have hr := hrte r (by rw [hb]; exact List.mem_cons_self)
        rw [hb] at hcore
        obtain rfl : b' = [] := h.rte (a.filter Insn.canJump ++ [x]) r b' (by rw [hcore]; simp) hr
        -- the `rte` goes behind the branch again
        have hx' : (x.opcode.tag == .j2Rte) = false := by
          cases ht : x.opcode.tag == .j2Rte
          · rfl
          · rw [Insn.isNewUser, Insn.system_lacks (rte_system ht) (by decide)] at hx
            cases hx
        have ha' : ∀ y ∈ a.filter Insn.canJump, (y.opcode.tag == .j2Rte) = false := fun y hy => by
          obtain ⟨s, t, hst⟩ := List.append_of_mem hy
          cases ht : y.opcode.tag == .j2Rte
          · rfl
          · have := h.rte s y (t ++ [x, r]) (by rw [hcore, hst]; simp) (beq_iff_eq.1 ht)
            simp at this
        have hl₁ : (a ++ b ++ [x]).filter Insn.canJump = a.filter Insn.canJump ++ r :: [x] := by
          simp [hb, hj]
        rcases h₂ with ⟨hnone, -⟩ | ⟨s, r', t, hst, hs, hr', -, rfl⟩
        · have hmem : r ∈ a ++ b ++ [x] := by
            have : r ∈ b.filter Insn.canJump := by rw [hb]; exact List.mem_cons_self
            simp [List.mem_of_mem_filter this]
          exact absurd (beq_iff_eq.2 hr) (List.find?_eq_none.1 hnone r hmem)
        · rw [hst, List.filter_append, List.filter_cons_of_pos (rte_canJump hr')] at hl₁
          obtain ⟨hsa, rfl, htx⟩ := split_first (p := fun x => x.opcode.tag == .j2Rte) hl₁
            (fun y hy => hs y (List.mem_of_mem_filter hy)) ha' hr' (beq_iff_eq.2 hr)
          rw [List.filter_append, List.filter_append, hsa, htx, hcore, List.filter_cons_of_pos (rte_canJump hr')]
          simp

/-- **`decode_shuffle_for_execution` ends**, and keeps the orders where the packet is safe for it. -/
theorem shuffleForExecution_core (hn : shuffled (core ++ c) = core.length) (hlen : core.length ≤ instructionsMax) :
    ∃ core', shuffleForExecution shuffleFuel (core ++ c) = some (core' ++ c) ∧ core'.Perm core ∧
      (OrderSafe core → core'.filter Insn.isMem = core.filter Insn.isMem ∧
        core'.filter Insn.canJump = core.filter Insn.canJump) := by
  obtain ⟨l, hloop, hr⟩ := shuffleLoop_fuel c hlen
  obtain ⟨l₁, heq₁, h₁⟩ := sendFirstToEnd_core Insn.isNewUser l c
  have h₁ : Sent Insn.isNewUser l l₁ := h₁
  obtain ⟨l₂, heq₂, h₂⟩ := sendFirstToEnd_core (fun x => x.opcode.tag == .j2Rte) l₁ c
  have h₂ : Sent (fun x => x.opcode.tag == .j2Rte) l₁ l₂ := h₂
  have hlen₁ : l₁.length = core.length := by rw [h₁.perm.length_eq, hr.perm.length_eq]
  rw [hr.perm.length_eq] at heq₁
  rw [hlen₁] at heq₂
  refine ⟨l₂, ?_, h₂.perm.trans (h₁.perm.trans hr.perm), fun h => ⟨h.mem_order hr h₁ h₂, h.branch_order hr h₁ h₂⟩⟩
  unfold shuffleForExecution
  simp only [hn, hloop, bind, Option.bind_some]
  rw [show sendFirstToEnd (·.attrib .dotnewvalue) core.length (l ++ c) = l₁ ++ c from heq₁, heq₂]

end Shuffle

end Hex
