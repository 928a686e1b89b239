import BinjaHexagon.Flow
/-!
# FlowCode — labelled code and the blocks written out to it

A program is a list of acts, tests, gotos, labels and exits; a label names the place where it is marked.  `step` moves
through the whole program, wherever its labels lead; a path goes either way at a test.  `emit` writes a block with
labels of its own, and a run of the program from the block's first instruction does what the block does.
-/
namespace Flow

inductive Instr (α β ξ : Type) where
  | act (a : α)
  | branch (c : β) (t f : Nat)
  | goto (l : Nat)
  | label (l : Nat)
  | exit (x : ξ)
  deriving Repr, DecidableEq

structure Cfg (α β σ : Type) where
  pc : Nat
  st : σ
  log : Log α β σ

variable {α β ξ σ : Type}

def Instr.isLabel (l : Nat) : Instr α β ξ → Bool
  | .label m => m == l
  | _ => false

/-- The labels a program marks, in order. -/
def marks : List (Instr α β ξ) → List Nat
  | [] => []
  | .label l :: c => l :: marks c
  | .act _ :: c | .branch _ _ _ :: c | .goto _ :: c | .exit _ :: c => marks c

/-- The labels a program jumps to, in order. -/
def uses : List (Instr α β ξ) → List Nat
  | [] => []
  | .branch _ t f :: c => t :: f :: uses c
  | .goto l :: c => l :: uses c
  | .act _ :: c | .label _ :: c | .exit _ :: c => uses c

def find (code : List (Instr α β ξ)) (l : Nat) : Option Nat := code.findIdx? (·.isLabel l)

/-- One instruction.  There is no step from an exit, from a jump to a label nobody marks, or past the end. -/
def step (M : Sem α β σ) (code : List (Instr α β ξ)) (c : Cfg α β σ) : Option (Cfg α β σ) :=
  match code[c.pc]? with
  | none => none
  | some (.act a) => some ⟨c.pc + 1, M.exec a c.st, c.log ++ [(c.st, .inl a)]⟩
  | some (.branch b t f) =>
    (find code (if M.test b c.st then t else f)).map fun pc => ⟨pc, c.st, c.log ++ [(c.st, .inr b)]⟩
  | some (.goto l) => (find code l).map fun pc => { c with pc }
  | some (.label _) => some { c with pc := c.pc + 1 }
  | some (.exit _) => none

/-- Any number of steps. -/
def Runs (M : Sem α β σ) (code : List (Instr α β ξ)) : Cfg α β σ → Cfg α β σ → Prop :=
  Relation.ReflTransGen fun a b => step M code a = some b

/-- A run that can go no further. -/
def Halts (M : Sem α β σ) (code : List (Instr α β ξ)) (a b : Cfg α β σ) : Prop :=
  Runs M code a b ∧ step M code b = none

theorem Runs.refl (M : Sem α β σ) (code : List (Instr α β ξ)) (a : Cfg α β σ) : Runs M code a a :=
  Relation.ReflTransGen.refl

theorem Runs.trans {M : Sem α β σ} {code : List (Instr α β ξ)} {a b c : Cfg α β σ} (h : Runs M code a b)
    (k : Runs M code b c) : Runs M code a c :=
  Relation.ReflTransGen.trans h k

theorem Runs.at {M : Sem α β σ} {code : List (Instr α β ξ)} {j j' k k' : Nat} {s s' : σ} {L L' : Log α β σ}
    (h : Runs M code ⟨k, s, L⟩ ⟨k', s', L'⟩) (hk : j = k) (hk' : j' = k') :
    Runs M code ⟨j, s, L⟩ ⟨j', s', L'⟩ :=
  hk ▸ hk' ▸ h

theorem Runs.one {M : Sem α β σ} {code : List (Instr α β ξ)} {a b : Cfg α β σ} (h : step M code a = some b) :
    Runs M code a b :=
  Relation.ReflTransGen.single h

/-- **A halting run is the only one.** -/
theorem Halts.unique {M : Sem α β σ} {code : List (Instr α β ξ)} {a b c : Cfg α β σ} (hb : Halts M code a b)
    (hc : Halts M code a c) : b = c := by
  obtain ⟨hab, hb⟩ := hb
  induction hab using Relation.ReflTransGen.head_induction_on with
  | refl =>
    rcases Relation.ReflTransGen.cases_head hc.1 with h | ⟨d, hd, _⟩
    · exact h
    · rw [hb] at hd; cases hd
  | head hd _ ih =>
    rcases Relation.ReflTransGen.cases_head hc.1 with h | ⟨d, hd', hdc⟩
    · subst h; rw [hc.2] at hd; cases hd
    · rw [hd] at hd'; cases hd'; exact ih ⟨hdc, hc.2⟩

theorem Runs.halts {M : Sem α β σ} {code : List (Instr α β ξ)} {a b c : Cfg α β σ} (h : Runs M code a b)
    (k : Halts M code b c) : Halts M code a c :=
  ⟨h.trans k.1, k.2⟩

theorem marks_append : ∀ c d : List (Instr α β ξ), marks (c ++ d) = marks c ++ marks d
  | [], _ => rfl
  | .label l :: c, d => by rw [List.cons_append, marks, marks_append c, marks, List.cons_append]
  | .act _ :: c, d => by rw [List.cons_append, marks, marks_append c, marks]
  | .branch _ _ _ :: c, d => by rw [List.cons_append, marks, marks_append c, marks]
  | .goto _ :: c, d => by rw [List.cons_append, marks, marks_append c, marks]
  | .exit _ :: c, d => by rw [List.cons_append, marks, marks_append c, marks]

theorem mem_marks : ∀ {c : List (Instr α β ξ)} {l : Nat}, l ∈ marks c ↔ .label l ∈ c
  | [], _ => ⟨fun h => absurd h List.not_mem_nil, fun h => absurd h List.not_mem_nil⟩
  | .label m :: c, l => by simp [marks, mem_marks]
  | .act _ :: c, l => by simp [marks, mem_marks]
  | .branch _ _ _ :: c, l => by simp [marks, mem_marks]
  | .goto _ :: c, l => by simp [marks, mem_marks]
  | .exit _ :: c, l => by simp [marks, mem_marks]

theorem uses_append : ∀ c d : List (Instr α β ξ), uses (c ++ d) = uses c ++ uses d
  | [], _ => rfl
  | .branch _ _ _ :: c, d => by rw [List.cons_append, uses, uses_append c, uses, List.cons_append, List.cons_append]
  | .goto _ :: c, d => by rw [List.cons_append, uses, uses_append c, uses, List.cons_append]
  | .act _ :: c, d => by rw [List.cons_append, uses, uses_append c, uses]
  | .label _ :: c, d => by rw [List.cons_append, uses, uses_append c, uses]
  | .exit _ :: c, d => by rw [List.cons_append, uses, uses_append c, uses]

theorem find_eq : ∀ {code : List (Instr α β ξ)} {k l : Nat}, (marks code).Nodup → code[k]? = some (.label l) →
    find code l = some k
  | [], _, _, _, h => by simp at h
  | i :: code, k, l, hn, h => by
    have hn' : (marks code).Nodup := by cases i <;> simp_all [marks]
    cases k with
    | zero =>
      obtain rfl : i = .label l := by simpa using h
      simp [find, List.findIdx?_cons, Instr.isLabel]
    | succ k =>
      have h' : code[k]? = some (.label l) := by simpa using h
      have hl : l ∈ marks code := mem_marks.2 (List.mem_of_getElem? h')
      have hi : i.isLabel l = false := by
        cases i with
        | label m => simp only [Instr.isLabel, beq_eq_false_iff_ne]; rintro rfl; simp [marks, hl] at hn
        | _ => rfl
      have ih : List.findIdx? (·.isLabel l) code = some k := find_eq hn' h'
      rw [find, List.findIdx?_cons, hi, if_neg Bool.false_ne_true, ih, Option.map_some]

/-- The program holds `c` from `k` on. -/
def At (code : List (Instr α β ξ)) (k : Nat) (c : List (Instr α β ξ)) : Prop := c <+: code.drop k

section Located

variable {code c d : List (Instr α β ξ)} {k : Nat}

theorem At.left (h : At code k (c ++ d)) : At code k c := (List.prefix_append c d).trans h

theorem At.right (h : At code k (c ++ d)) : At code (k + c.length) d := by
  obtain ⟨e, he⟩ := h
  refine ⟨e, ?_⟩
  rw [← List.drop_drop, ← he, List.append_assoc, List.drop_left]

theorem At.tail {i : Instr α β ξ} (h : At code k (i :: c)) : At code (k + 1) c := At.right (c := [i]) h

theorem At.head {i : Instr α β ξ} (h : At code k (i :: c)) : code[k]? = some i := by
  obtain ⟨e, he⟩ := h
  have := congrArg (·[0]?) he
  simpa using this.symm

theorem At.self (code : List (Instr α β ξ)) : At code 0 code := List.prefix_rfl

variable (M : Sem α β σ) (s : σ) (L : Log α β σ)

theorem step_act {a : α} (h : code[k]? = some (.act a)) :
    step M code ⟨k, s, L⟩ = some ⟨k + 1, M.exec a s, L ++ [(s, .inl a)]⟩ := by
  simp only [step, h]

theorem step_label {l : Nat} (h : code[k]? = some (.label l)) : step M code ⟨k, s, L⟩ = some ⟨k + 1, s, L⟩ := by
  simp only [step, h]

theorem step_goto {l j : Nat} (h : code[k]? = some (.goto l)) (hj : find code l = some j) :
    step M code ⟨k, s, L⟩ = some ⟨j, s, L⟩ := by
  simp only [step, h, hj, Option.map_some]

theorem step_branch_true {b : β} {t f j : Nat} (h : code[k]? = some (.branch b t f)) (hb : M.test b s = true)
    (hj : find code t = some j) : step M code ⟨k, s, L⟩ = some ⟨j, s, L ++ [(s, .inr b)]⟩ := by
  simp only [step, h, hb, if_true, hj, Option.map_some]

theorem step_branch_false {b : β} {t f j : Nat} (h : code[k]? = some (.branch b t f)) (hb : M.test b s = false)
    (hj : find code f = some j) : step M code ⟨k, s, L⟩ = some ⟨j, s, L ++ [(s, .inr b)]⟩ := by
  simp only [step, h, hb, Bool.false_eq_true, if_false, hj, Option.map_some]

theorem step_exit {x : ξ} (h : code[k]? = some (.exit x)) : step M code ⟨k, s, L⟩ = none := by
  simp only [step, h]

theorem step_end : step M code ⟨code.length, s, L⟩ = none := by
  simp only [step, List.getElem?_eq_none (Nat.le_refl _)]

end Located

section Paths

/-- Where control can go from instruction `k`, whichever way a test goes. -/
def Next (code : List (Instr α β ξ)) (k m : Nat) : Prop :=
  match code[k]? with
  | some (.act _) | some (.label _) => m = k + 1
  | some (.branch _ t f) => find code t = some m ∨ find code f = some m
  | some (.goto l) => find code l = some m
  | some (.exit _) | none => False

/-- A path through the program. -/
def Reaches (code : List (Instr α β ξ)) : Nat → Nat → Prop := Relation.ReflTransGen (Next code)

/-- Nothing comes behind it. -/
def Instr.stops : Instr α β ξ → Bool
  | .goto _ | .exit _ => true
  | .act _ | .branch _ _ _ | .label _ => false

variable {code A B : List (Instr α β ξ)} {j k l m : Nat}

theorem Reaches.trans (h : Reaches code j k) (h' : Reaches code k m) : Reaches code j m :=
    Relation.ReflTransGen.trans h h'

theorem Reaches.at {j' k' : Nat} (h : Reaches code j k) (hj : j' = j) (hk : k' = k) : Reaches code j' k' := hj ▸ hk ▸ h

theorem next_act {a : α} (h : code[k]? = some (.act a)) : Next code k (k + 1) := by simp only [Next, h]

theorem next_label (h : code[k]? = some (.label l)) : Next code k (k + 1) := by simp only [Next, h]

theorem next_goto (h : code[k]? = some (.goto l)) (hm : find code l = some m) :
    Next code k m := by simp only [Next, h, hm]

theorem next_branch_true {b : β} {t f : Nat} (h : code[k]? = some (.branch b t f)) (hm : find code t = some m) :
    Next code k m := by
  simp only [Next, h]
  exact .inl hm

theorem next_branch_false {b : β} {t f : Nat} (h : code[k]? = some (.branch b t f)) (hm : find code f = some m) :
    Next code k m := by
  simp only [Next, h]
  exact .inr hm

theorem next_of_step {M : Sem α β σ} {a b : Cfg α β σ} (h : step M code a = some b) : Next code a.pc b.pc := by
  unfold step at h
  unfold Next
  cases hi : code[a.pc]? with
  | none =>
    rw [hi] at h
    cases h
  | some i =>
    rw [hi] at h
    cases i with
    | act x =>
      cases h
      rfl
    | branch c t f =>
      obtain ⟨pc, hpc, rfl⟩ := Option.map_eq_some_iff.1 h
      split at hpc
      · exact .inl hpc
      · exact .inr hpc
    | goto l =>
      obtain ⟨pc, hpc, rfl⟩ := Option.map_eq_some_iff.1 h
      exact hpc
    | label l =>
      cases h
      rfl
    | exit x => cases h

/-- **A run keeps to the paths.** -/
theorem Runs.reaches {M : Sem α β σ} {a b : Cfg α β σ} (h : Runs M code a b) : Reaches code a.pc b.pc := by
  induction h with
  | refl => exact .refl
  | tail _ hstep ih => exact ih.tail (next_of_step hstep)

theorem mem_uses : ∀ {c : List (Instr α β ξ)}, l ∈ uses c ↔
    (∃ b t f, .branch b t f ∈ c ∧ (l = t ∨ l = f)) ∨ .goto l ∈ c
  | [] => by simp [uses]
  | i :: c => by
    have ih := @mem_uses c
    cases i with
    | branch b t f =>
      simp only [uses, List.mem_cons, ih, Instr.branch.injEq, reduceCtorEq, false_or]
      constructor
      · rintro (rfl | rfl | ⟨b', t', f', h, hl⟩ | h)
        · exact .inl ⟨b, _, f, .inl ⟨rfl, rfl, rfl⟩, .inl rfl⟩
        · exact .inl ⟨b, t, _, .inl ⟨rfl, rfl, rfl⟩, .inr rfl⟩
        · exact .inl ⟨b', t', f', .inr h, hl⟩
        · exact .inr h
      · rintro (⟨b', t', f', ⟨-, rfl, rfl⟩ | h, hl⟩ | h)
        · rcases hl with rfl | rfl
          · exact .inl rfl
          · exact .inr (.inl rfl)
        · exact .inr (.inr (.inl ⟨b', t', f', h, hl⟩))
        · exact .inr (.inr (.inr h))
    | goto x => simp [uses, ih, or_left_comm]
    | _ => simp [uses, ih]

theorem find_lt (hn : (marks (A ++ B)).Nodup) (hl : l ∈ marks A) (h : find (A ++ B) l = some m) : m < A.length := by
  obtain ⟨j, hj, hlabel⟩ := List.mem_iff_getElem.1 (mem_marks.1 hl)
  have hfound := find_eq hn (k := j) (l := l) (by
    rw [List.getElem?_append_left hj, List.getElem?_eq_getElem hj, hlabel])
  rw [h] at hfound
  rwa [Option.some.inj hfound]

/-- **A first part that nothing falls out of is left only by its jumps**, and stays left to the places `T` they lead
to. -/
theorem Reaches.within {T : Nat → Prop} (h : Reaches (A ++ B) k m) (hk : k < A.length ∨ T k)
    (hstop : ∀ i, A.getLast? = some i → i.stops = true)
    (huses : ∀ l ∈ uses A, ∀ j, find (A ++ B) l = some j → j < A.length ∨ T j)
    (hT : ∀ j, T j → ∀ j', Next (A ++ B) j j' → j' < A.length ∨ T j') : m < A.length ∨ T m := by
  have hfall : ∀ {j i}, A[j]? = some i → i.stops = false → j + 1 < A.length := by
    intro j i hi hs
    obtain ⟨hj, hij⟩ := List.getElem?_eq_some_iff.1 hi
    by_contra hlast
    have hend : A.getLast? = some i := by rw [List.getLast?_eq_getElem?, show A.length - 1 = j by omega, hi]
    rw [hstop i hend] at hs
    cases hs
  induction h with
  | refl => exact hk
  | @tail j j' _ hnext ih =>
    rcases ih with hj | hj
    · unfold Next at hnext
      rw [List.getElem?_append_left hj, List.getElem?_eq_getElem hj] at hnext
      have hmem : A[j] ∈ A := List.getElem_mem hj
      have hget : A[j]? = some A[j] := List.getElem?_eq_getElem hj
      cases hi : A[j] with
      | act a =>
        rw [hi] at hnext hget
        obtain rfl : j' = j + 1 := hnext
        exact .inl (hfall hget rfl)
      | label x =>
        rw [hi] at hnext hget
        obtain rfl : j' = j + 1 := hnext
        exact .inl (hfall hget rfl)
      | branch b t f =>
        rw [hi] at hnext hmem
        rcases hnext with hnext | hnext
        · exact huses t (mem_uses.2 (.inl ⟨b, t, f, hmem, .inl rfl⟩)) _ hnext
        · exact huses f (mem_uses.2 (.inl ⟨b, t, f, hmem, .inr rfl⟩)) _ hnext
      | goto x =>
        rw [hi] at hnext hmem
        exact huses x (mem_uses.2 (.inr hmem)) _ hnext
      | exit x =>
        rw [hi] at hnext
        exact hnext.elim
    · exact hT j hj j' hnext

end Paths

namespace Block

/-- Write a block out, taking labels from `n` on; the first label not taken comes back. -/
def emit (ξ : Type) : Block α β → Nat → List (Instr α β ξ) × Nat
  | nil, n => ([], n)
  | act a r, n =>
    let cr := r.emit ξ n
    (.act a :: cr.1, cr.2)
  | ifThen c t r, n =>
    let trueCase := n
    let done := n + 1
    let ct := t.emit ξ (n + 2)
    let cr := r.emit ξ ct.2
    (.branch c trueCase done :: .label trueCase :: (ct.1 ++ .label done :: cr.1), cr.2)
  | ifElse c t f r, n =>
    let trueCase := n
    let falseCase := n + 1
    let done := n + 2
    let ct := t.emit ξ (n + 3)
    let cf := f.emit ξ ct.2
    let cr := r.emit ξ cf.2
    (.branch c trueCase falseCase :: .label trueCase ::
      (ct.1 ++ .goto done :: .label falseCase :: (cf.1 ++ .label done :: cr.1)), cr.2)

theorem emit_append : ∀ (b k : Block α β) (n : Nat),
    (b ++ k).emit ξ n = ((b.emit ξ n).1 ++ (k.emit ξ (b.emit ξ n).2).1, (k.emit ξ (b.emit ξ n).2).2)
  | nil, _, _ => rfl
  | act a r, k, n => by simp only [act_append, emit, emit_append r, List.cons_append]
  | ifThen c t r, k, n => by simp only [ifThen_append, emit, emit_append r, List.cons_append, List.append_assoc]
  | ifElse c t f r, k, n => by simp only [ifElse_append, emit, emit_append r, List.cons_append, List.append_assoc]

theorem emit_ofList : ∀ (l : List α) (n : Nat), (ofList l : Block α β).emit ξ n = (l.map .act, n)
  | [], _ => rfl
  | a :: l, n => by rw [ofList, emit, emit_ofList l]; rfl

theorem le_emit (ξ : Type) : ∀ (b : Block α β) (n : Nat), n ≤ (b.emit ξ n).2
  | nil, _ => Nat.le_refl _
  | act _ r, n => le_emit ξ r n
  | ifThen _ t r, n => by
    have h1 := le_emit ξ t (n + 2)
    have h2 := le_emit ξ r (t.emit ξ (n + 2)).2
    simp only [emit]
    omega
  | ifElse _ t f r, n => by
    have h1 := le_emit ξ t (n + 3)
    have h2 := le_emit ξ f (t.emit ξ (n + 3)).2
    have h3 := le_emit ξ r (f.emit ξ (t.emit ξ (n + 3)).2).2
    simp only [emit]
    omega

theorem marks_emit (ξ : Type) :
    ∀ (b : Block α β) (n : Nat), ∀ l ∈ marks (b.emit ξ n).1, n ≤ l ∧ l < (b.emit ξ n).2
  | nil, _, l, h => absurd h List.not_mem_nil
  | act _ r, n, l, h => marks_emit ξ r n l h
  | ifThen _ t r, n, l, h => by
    have ht := marks_emit ξ t (n + 2) l
    have hr := marks_emit ξ r (t.emit ξ (n + 2)).2 l
    have h1 := le_emit ξ t (n + 2)
    have h2 := le_emit ξ r (t.emit ξ (n + 2)).2
    simp only [emit, marks, marks_append, List.mem_cons, List.mem_append] at h ⊢
    rcases h with rfl | h | rfl | h
    · omega
    · have := ht h; omega
    · omega
    · have := hr h; omega
  | ifElse _ t f r, n, l, h => by
    have ht := marks_emit ξ t (n + 3) l
    have hf := marks_emit ξ f (t.emit ξ (n + 3)).2 l
    have hr := marks_emit ξ r (f.emit ξ (t.emit ξ (n + 3)).2).2 l
    have h1 := le_emit ξ t (n + 3)
    have h2 := le_emit ξ f (t.emit ξ (n + 3)).2
    have h3 := le_emit ξ r (f.emit ξ (t.emit ξ (n + 3)).2).2
    simp only [emit, marks, marks_append, List.mem_cons, List.mem_append] at h ⊢
    rcases h with rfl | h | rfl | h | rfl | h
    · omega
    · have := ht h; omega
    · omega
    · have := hf h; omega
    · omega
    · have := hr h; omega

theorem nodup_marks_emit (ξ : Type) : ∀ (b : Block α β) (n : Nat), (marks (b.emit ξ n).1).Nodup
  | nil, _ => List.nodup_nil
  | act _ r, n => nodup_marks_emit ξ r n
  | ifThen _ t r, n => by
    have h1 := marks_emit ξ t (n + 2)
    have h2 := marks_emit ξ r (t.emit ξ (n + 2)).2
    have h3 := le_emit ξ t (n + 2)
    have hr : ((n + 1) :: marks (r.emit ξ (t.emit ξ (n + 2)).2).1).Nodup :=
      List.nodup_cons.2 ⟨fun h => by have := h2 _ h; omega, nodup_marks_emit ξ r _⟩
    have htr := List.nodup_append.2 ⟨nodup_marks_emit ξ t (n + 2), hr, fun l hl m hm => by
      have := h1 _ hl
      rcases List.mem_cons.1 hm with rfl | hm
      · omega
      · have := h2 _ hm; omega⟩
    simp only [emit, marks, marks_append]
    refine List.nodup_cons.2 ⟨fun h => ?_, htr⟩
    rcases List.mem_append.1 h with h | h
    · have := h1 _ h; omega
    · rcases List.mem_cons.1 h with h | h
      · omega
      · have := h2 _ h; omega
  | ifElse _ t f r, n => by
    have h1 := marks_emit ξ t (n + 3)
    have h2 := marks_emit ξ f (t.emit ξ (n + 3)).2
    have h3 := marks_emit ξ r (f.emit ξ (t.emit ξ (n + 3)).2).2
    have h4 := le_emit ξ t (n + 3)
    have h5 := le_emit ξ f (t.emit ξ (n + 3)).2
    have hr : ((n + 2) :: marks (r.emit ξ (f.emit ξ (t.emit ξ (n + 3)).2).2).1).Nodup :=
      List.nodup_cons.2 ⟨fun h => by have := h3 _ h; omega, nodup_marks_emit ξ r _⟩
    have hfr := List.nodup_append.2 ⟨nodup_marks_emit ξ f (t.emit ξ (n + 3)).2, hr, fun l hl m hm => by
      have := h2 _ hl
      rcases List.mem_cons.1 hm with rfl | hm
      · omega
      · have := h3 _ hm; omega⟩
    have hlater : ∀ l ∈ marks (f.emit ξ (t.emit ξ (n + 3)).2).1 ++
        (n + 2) :: marks (r.emit ξ (f.emit ξ (t.emit ξ (n + 3)).2).2).1, l = n + 2 ∨ (t.emit ξ (n + 3)).2 ≤ l := by
      intro l hl
      rcases List.mem_append.1 hl with hl | hl
      · have := h2 _ hl; omega
      · rcases List.mem_cons.1 hl with hl | hl
        · exact .inl hl
        · have := h3 _ hl; omega
    have hfr' := List.nodup_cons.2 ⟨fun h : n + 1 ∈ _ => by have := hlater _ h; omega, hfr⟩
    have htr := List.nodup_append.2 ⟨nodup_marks_emit ξ t (n + 3), hfr', fun l hl m hm => by
      have := h1 _ hl
      rcases List.mem_cons.1 hm with rfl | hm
      · omega
      · have := hlater _ hm; omega⟩
    simp only [emit, marks, marks_append]
    refine List.nodup_cons.2 ⟨fun h => ?_, htr⟩
    rcases List.mem_append.1 h with h | h
    · have := h1 _ h; omega
    · rcases List.mem_cons.1 h with h | h
      · omega
      · have := hlater _ h; omega

/-- **A written-out block marks every label it jumps to.** -/
theorem uses_emit (ξ : Type) : ∀ (b : Block α β) (n : Nat), ∀ l ∈ uses (b.emit ξ n).1, l ∈ marks (b.emit ξ n).1
  | nil, _, _, h => absurd h List.not_mem_nil
  | act _ r, n, l, h => uses_emit ξ r n l h
  | ifThen _ t r, n, l, h => by
    have ht := uses_emit ξ t (n + 2) l
    have hr := uses_emit ξ r (t.emit ξ (n + 2)).2 l
    simp only [emit, uses, uses_append, marks, marks_append, List.mem_cons, List.mem_append] at h ⊢
    rcases h with h | h | h | h
    · exact .inl h
    · exact .inr (.inr (.inl h))
    · exact .inr (.inl (ht h))
    · exact .inr (.inr (.inr (hr h)))
  | ifElse _ t f r, n, l, h => by
    have ht := uses_emit ξ t (n + 3) l
    have hf := uses_emit ξ f (t.emit ξ (n + 3)).2 l
    have hr := uses_emit ξ r (f.emit ξ (t.emit ξ (n + 3)).2).2 l
    simp only [emit, uses, uses_append, marks, marks_append, List.mem_cons, List.mem_append] at h ⊢
    rcases h with h | h | h | h | h | h
    · exact .inl h
    · exact .inr (.inr (.inl h))
    · exact .inr (.inl (ht h))
    · exact .inr (.inr (.inr (.inr (.inl h))))
    · exact .inr (.inr (.inr (.inl (hf h))))
    · exact .inr (.inr (.inr (.inr (.inr (hr h)))))

/-- **The written-out block does what the block does**, wherever it stands in a program that marks no label twice. -/
theorem runs_emit (M : Sem α β σ) {code : List (Instr α β ξ)} (hn : (marks code).Nodup) :
    ∀ (b : Block α β) (n k : Nat) (s : σ) (L : Log α β σ), At code k (b.emit ξ n).1 →
      Runs M code ⟨k, s, L⟩ ⟨k + (b.emit ξ n).1.length, b.run M s, L ++ b.log M s⟩
  | nil, n, k, s, L, _ => by
    simp only [emit, List.length_nil, Nat.add_zero, run, log, List.append_nil]
    exact Runs.refl _ _ _
  | act a r, n, k, s, L, h => by
    have hr := runs_emit M hn r n (k + 1) (M.exec a s) (L ++ [(s, .inl a)]) h.tail
    rw [run, log, List.append_cons]
    exact (Runs.one (step_act M s L h.head)).trans (hr.at rfl (by simp only [emit, List.length_cons]; omega))
  | ifThen c t r, n, k, s, L, h => by
    have ht := h.tail.tail.left
    have hd := h.tail.tail.right
    have hrest (s : σ) (L : Log α β σ) := (Runs.one (step_label M s L hd.head)).trans
      (runs_emit M hn r _ _ s L hd.tail)
    rw [run, log, List.append_cons, ← List.append_assoc]
    cases hc : M.test c s with
    | true =>
      have hb := step_branch_true M s L h.head hc (find_eq hn h.tail.head)
      have hl := step_label M s (L ++ [(s, .inr c)]) h.tail.head
      have hbody := runs_emit M hn t (n + 2) _ s (L ++ [(s, .inr c)]) ht
      exact (Runs.one hb).trans ((Runs.one hl).trans (hbody.trans ((hrest _ _).at rfl (by
        simp only [emit, List.length_cons, List.length_append]; omega))))
    | false =>
      have hb := step_branch_false M s L h.head hc (find_eq hn hd.head)
      rw [if_neg Bool.false_ne_true, if_neg Bool.false_ne_true, List.append_nil]
      exact (Runs.one hb).trans ((hrest _ _).at rfl (by
        simp only [emit, List.length_cons, List.length_append]; omega))
  | ifElse c t f r, n, k, s, L, h => by
    have ht := h.tail.tail.left
    have hg := h.tail.tail.right
    have hf := hg.tail.tail.left
    have hd := hg.tail.tail.right
    have hrest (s : σ) (L : Log α β σ) := (Runs.one (step_label M s L hd.head)).trans
      (runs_emit M hn r _ _ s L hd.tail)
    rw [run, log, List.append_cons, ← List.append_assoc]
    cases hc : M.test c s with
    | true =>
      have hb := step_branch_true M s L h.head hc (find_eq hn h.tail.head)
      have hl := step_label M s (L ++ [(s, .inr c)]) h.tail.head
      have hbody := runs_emit M hn t (n + 3) _ s (L ++ [(s, .inr c)]) ht
      have hgoto := step_goto M (t.run M s) (L ++ [(s, .inr c)] ++ t.log M s) hg.head (find_eq hn hd.head)
      exact (Runs.one hb).trans ((Runs.one hl).trans (hbody.trans ((Runs.one hgoto).trans ((hrest _ _).at rfl (by
        simp only [emit, List.length_cons, List.length_append]; omega)))))
    | false =>
      have hb := step_branch_false M s L h.head hc (find_eq hn hg.tail.head)
      have hl := step_label M s (L ++ [(s, .inr c)]) hg.tail.head
      have hbody := runs_emit M hn f _ _ s (L ++ [(s, .inr c)]) hf
      rw [if_neg Bool.false_ne_true, if_neg Bool.false_ne_true]
      exact (Runs.one hb).trans ((Runs.one hl).trans (hbody.trans ((hrest _ _).at rfl (by
        simp only [emit, List.length_cons, List.length_append]; omega))))

end Block
end Flow
