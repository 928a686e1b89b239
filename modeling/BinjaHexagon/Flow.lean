import Mathlib.Logic.Relation
import Mathlib.Data.List.Basic
/-!
# Flow — structured blocks and labelled code

A block of acts and two kinds of conditional, the labelled code it is written out to (`emit`), and what a run of the
whole labelled program does when it reaches the block's first instruction.  Nothing here knows what an act is.
-/
namespace Flow

/-- A straight list of acts and conditionals; every constructor carries what follows it. -/
inductive Block (α β : Type) where
  | nil
  | act (a : α) (rest : Block α β)
  | ifThen (c : β) (t rest : Block α β)
  | ifElse (c : β) (t f rest : Block α β)
  deriving Repr, DecidableEq

/-- What an act does to the state, and which way a test goes. -/
@[ext]
structure Sem (α β σ : Type) where
  exec : α → σ → σ
  test : β → σ → Bool

/-- One executed act, or one executed test, with the state it was executed in. -/
abbrev Log (α β σ : Type) := List (σ × (α ⊕ β))

/-- The meaning of acts that stand for acts of another language, or for nothing. -/
def Sem.pull {α β α' β' σ : Type} (M : Sem α' β' σ) (f : α → Option α') (g : β → β') : Sem α β σ where
  exec a s := match f a with
    | some a' => M.exec a' s
    | none => s
  test b := M.test (g b)

namespace Block

variable {α β α' β' ι σ : Type}

def append : Block α β → Block α β → Block α β
  | nil, k => k
  | act a r, k => act a (r.append k)
  | ifThen c t r, k => ifThen c t (r.append k)
  | ifElse c t f r, k => ifElse c t f (r.append k)

instance : Append (Block α β) := ⟨append⟩

@[simp] theorem nil_append (k : Block α β) : nil ++ k = k := rfl
@[simp] theorem act_append (a : α) (r k : Block α β) : act a r ++ k = act a (r ++ k) := rfl
@[simp] theorem ifThen_append (c : β) (t r k : Block α β) : ifThen c t r ++ k = ifThen c t (r ++ k) := rfl
@[simp] theorem ifElse_append (c : β) (t f r k : Block α β) : ifElse c t f r ++ k = ifElse c t f (r ++ k) := rfl

@[simp] theorem append_nil : ∀ b : Block α β, b ++ nil = b
  | nil => rfl
  | act a r => by rw [act_append, append_nil r]
  | ifThen c t r => by rw [ifThen_append, append_nil r]
  | ifElse c t f r => by rw [ifElse_append, append_nil r]

theorem append_assoc : ∀ b c d : Block α β, b ++ c ++ d = b ++ (c ++ d)
  | nil, _, _ => rfl
  | act a r, c, d => by simp only [act_append, append_assoc r]
  | ifThen e t r, c, d => by simp only [ifThen_append, append_assoc r]
  | ifElse e t f r, c, d => by simp only [ifElse_append, append_assoc r]

/-- The acts of a list, one after the other. -/
def ofList : List α → Block α β
  | [] => nil
  | a :: l => act a (ofList l)

def flatten : List (Block α β) → Block α β
  | [] => nil
  | b :: l => b ++ flatten l

theorem flatten_append : ∀ l m : List (Block α β), flatten (l ++ m) = flatten l ++ flatten m
  | [], _ => rfl
  | b :: l, m => by rw [List.cons_append, flatten, flatten_append l m, flatten, append_assoc]

def run (M : Sem α β σ) : Block α β → σ → σ
  | nil, s => s
  | act a r, s => r.run M (M.exec a s)
  | ifThen c t r, s => r.run M (if M.test c s then t.run M s else s)
  | ifElse c t f r, s => r.run M (if M.test c s then t.run M s else f.run M s)

/-- Everything a run executes, in order. -/
def log (M : Sem α β σ) : Block α β → σ → Log α β σ
  | nil, _ => []
  | act a r, s => (s, .inl a) :: r.log M (M.exec a s)
  | ifThen c t r, s =>
    (s, .inr c) :: ((if M.test c s then t.log M s else []) ++
      r.log M (if M.test c s then t.run M s else s))
  | ifElse c t f r, s =>
    (s, .inr c) :: ((if M.test c s then t.log M s else f.log M s) ++
      r.log M (if M.test c s then t.run M s else f.run M s))

theorem run_append (M : Sem α β σ) : ∀ (b k : Block α β) (s : σ), (b ++ k).run M s = k.run M (b.run M s)
  | nil, _, _ => rfl
  | act a r, k, s => by rw [act_append, run, run_append M r, run]
  | ifThen c t r, k, s => by rw [ifThen_append, run, run_append M r, run]
  | ifElse c t f r, k, s => by rw [ifElse_append, run, run_append M r, run]

theorem log_append (M : Sem α β σ) :
    ∀ (b k : Block α β) (s : σ), (b ++ k).log M s = b.log M s ++ k.log M (b.run M s)
  | nil, _, _ => rfl
  | act a r, k, s => by rw [act_append, log, log_append M r, log, run, List.cons_append]
  | ifThen c t r, k, s => by rw [ifThen_append, log, log_append M r, log, run, List.cons_append, List.append_assoc]
  | ifElse c t f r, k, s => by rw [ifElse_append, log, log_append M r, log, run, List.cons_append, List.append_assoc]

theorem run_ofList (M : Sem α β σ) : ∀ (l : List α) (s : σ), (ofList l).run M s = l.foldl (fun s a => M.exec a s) s
  | [], _ => rfl
  | a :: l, s => by rw [ofList, run, run_ofList M l, List.foldl_cons]

theorem log_ofList_map (M : Sem α β σ) : ∀ (l : List α) (s : σ), ((ofList l).log M s).map Prod.snd = l.map .inl
  | [], _ => rfl
  | a :: l, s => by rw [ofList, log, List.map_cons, log_ofList_map M l, List.map_cons]

/-- Every sequence of acts and tests the block can execute, whichever way its tests go. -/
def paths : Block α β → List (List (α ⊕ β))
  | nil => [[]]
  | act a r => r.paths.map (.inl a :: ·)
  | ifThen c t r => ([] :: t.paths).flatMap fun p => r.paths.map fun q => .inr c :: (p ++ q)
  | ifElse c t f r => (t.paths ++ f.paths).flatMap fun p => r.paths.map fun q => .inr c :: (p ++ q)

theorem log_mem_paths (M : Sem α β σ) : ∀ (b : Block α β) (s : σ), (b.log M s).map Prod.snd ∈ b.paths
  | nil, _ => List.mem_singleton.2 rfl
  | act a r, s => List.mem_map.2 ⟨_, log_mem_paths M r _, rfl⟩
  | ifThen c t r, s => by
    refine List.mem_flatMap.2 ⟨((if M.test c s then t.log M s else []).map Prod.snd), ?_,
      List.mem_map.2 ⟨_, log_mem_paths M r _, by rw [log, List.map_cons, List.map_append]⟩⟩
    split
    · exact List.mem_cons_of_mem _ (log_mem_paths M t s)
    · exact List.mem_cons_self
  | ifElse c t f r, s => by
    refine List.mem_flatMap.2 ⟨((if M.test c s then t.log M s else f.log M s).map Prod.snd), ?_,
      List.mem_map.2 ⟨_, log_mem_paths M r _, by rw [log, List.map_cons, List.map_append]⟩⟩
    split
    · exact List.mem_append_left _ (log_mem_paths M t s)
    · exact List.mem_append_right _ (log_mem_paths M f s)

/-- The acts that occur in a block, executed or not. -/
def acts : Block α β → List α
  | nil => []
  | act a r => a :: r.acts
  | ifThen _ t r => t.acts ++ r.acts
  | ifElse _ t f r => t.acts ++ (f.acts ++ r.acts)

/-- The tests that occur in a block. -/
def tests : Block α β → List β
  | nil => []
  | act _ r => r.tests
  | ifThen c t r => c :: (t.tests ++ r.tests)
  | ifElse c t f r => c :: (t.tests ++ (f.tests ++ r.tests))

theorem acts_append : ∀ b k : Block α β, (b ++ k).acts = b.acts ++ k.acts
  | nil, _ => rfl
  | act a r, k => by rw [act_append, acts, acts_append r, acts, List.cons_append]
  | ifThen c t r, k => by rw [ifThen_append, acts, acts_append r, acts, List.append_assoc]
  | ifElse c t f r, k => by rw [ifElse_append, acts, acts_append r, acts, List.append_assoc, List.append_assoc]

theorem tests_append : ∀ b k : Block α β, (b ++ k).tests = b.tests ++ k.tests
  | nil, _ => rfl
  | act a r, k => by rw [act_append, tests, tests_append r, tests]
  | ifThen c t r, k => by rw [ifThen_append, tests, tests_append r, tests, List.cons_append, List.append_assoc]
  | ifElse c t f r, k => by
    rw [ifElse_append, tests, tests_append r, tests, List.cons_append, List.append_assoc, List.append_assoc]

theorem acts_ofList : ∀ l : List α, (ofList l : Block α β).acts = l
  | [] => rfl
  | a :: l => by rw [ofList, acts, acts_ofList l]

theorem mem_acts_of_mem_log (M : Sem α β σ) :
    ∀ (b : Block α β) (s : σ) {e : σ} {a : α}, (e, .inl a) ∈ b.log M s → a ∈ b.acts
  | nil, _, _, _, h => absurd h List.not_mem_nil
  | act a r, s, e, x, h => by
    rcases List.mem_cons.1 h with h | h
    · cases h; exact List.mem_cons_self
    · exact List.mem_cons_of_mem _ (mem_acts_of_mem_log M r _ h)
  | ifThen c t r, s, e, x, h => by
    rcases List.mem_cons.1 h with h | h
    · cases h
    · rcases List.mem_append.1 h with h | h
      · split at h
        · exact List.mem_append_left _ (mem_acts_of_mem_log M t s h)
        · exact absurd h List.not_mem_nil
      · exact List.mem_append_right _ (mem_acts_of_mem_log M r _ h)
  | ifElse c t f r, s, e, x, h => by
    rcases List.mem_cons.1 h with h | h
    · cases h
    · rcases List.mem_append.1 h with h | h
      · split at h
        · exact List.mem_append_left _ (mem_acts_of_mem_log M t s h)
        · exact List.mem_append_right _ (List.mem_append_left _ (mem_acts_of_mem_log M f s h))
      · exact List.mem_append_right _ (List.mem_append_right _ (mem_acts_of_mem_log M r _ h))

/-- **A run keeps what every one of its acts keeps.** -/
theorem run_induction (M : Sem α β σ) (I : σ → Prop) :
    ∀ (b : Block α β), (∀ a ∈ b.acts, ∀ s, I s → I (M.exec a s)) → ∀ s, I s → I (b.run M s)
  | nil, _, _, hs => hs
  | act a r, h, s, hs =>
    run_induction M I r (fun x hx => h x (List.mem_cons_of_mem _ hx)) _ (h a List.mem_cons_self s hs)
  | ifThen c t r, h, s, hs => by
    refine run_induction M I r (fun x hx => h x (List.mem_append_right _ hx)) _ ?_
    split
    · exact run_induction M I t (fun x hx => h x (List.mem_append_left _ hx)) s hs
    · exact hs
  | ifElse c t f r, h, s, hs => by
    refine run_induction M I r (fun x hx => h x (List.mem_append_right _ (List.mem_append_right _ hx))) _ ?_
    split
    · exact run_induction M I t (fun x hx => h x (List.mem_append_left _ hx)) s hs
    · exact run_induction M I f (fun x hx => h x (List.mem_append_right _ (List.mem_append_left _ hx))) s hs

/-- A flag of the state that is raised exactly when a marked act is passed. -/
def Tracks (M : Sem α β σ) (flag : σ → Bool) (mark : α → Bool) (b : Block α β) : Prop :=
  ∀ s, flag (b.run M s) = (flag s || (b.log M s).any fun e => e.2.elim mark fun _ => false)

section Tracks

variable {M : Sem α β σ} {flag : σ → Bool} {mark : α → Bool}

theorem Tracks.nil : Tracks M flag mark (nil : Block α β) := fun s => by simp [run, log]

theorem Tracks.act {a : α} (hm : mark a = false) (h : ∀ s, flag (M.exec a s) = flag s) :
    Tracks M flag mark (Block.act a .nil) := fun s => by simp [run, log, h, hm]

theorem Tracks.append {b k : Block α β} (hb : Tracks M flag mark b) (hk : Tracks M flag mark k) :
    Tracks M flag mark (b ++ k) := fun s => by
  rw [run_append, log_append, hk, hb, List.any_append, Bool.or_assoc]

theorem Tracks.ifThen {c : β} {t : Block α β} (ht : Tracks M flag mark t) :
    Tracks M flag mark (Block.ifThen c t .nil) := fun s => by
  simp only [run, log, List.append_nil, List.any_cons, Sum.elim_inr, Bool.false_or]
  split
  · exact ht s
  · simp

theorem Tracks.ifElse {c : β} {t f : Block α β} (ht : Tracks M flag mark t) (hf : Tracks M flag mark f) :
    Tracks M flag mark (Block.ifElse c t f .nil) := fun s => by
  simp only [run, log, List.append_nil, List.any_cons, Sum.elim_inr, Bool.false_or]
  split
  · exact ht s
  · exact hf s

/-- Raise the flag first, then go through acts that leave it alone and pass a marked one. -/
theorem Tracks.raise {a : α} {b : Block α β} (h : ∀ s, flag (M.exec a s) = true)
    (hb : ∀ s, flag (b.run M s) = flag s) (hm : ∀ s, ((b.log M s).any fun e => e.2.elim mark fun _ => false) = true) :
    Tracks M flag mark (Block.act a b) := fun s => by
  rw [run, hb, h, log, List.any_cons, hm, Bool.or_true, Bool.or_true]

theorem Tracks.ofList : ∀ {l : List α}, (∀ a ∈ l, mark a = false ∧ ∀ s, flag (M.exec a s) = flag s) →
    Tracks M flag mark (Block.ofList l : Block α β)
  | [], _ => .nil
  | a :: _, h =>
    have ha := h a List.mem_cons_self
    (Tracks.act ha.1 ha.2).append (Tracks.ofList fun b hb => h b (List.mem_cons_of_mem _ hb))

end Tracks

section Latches

variable {γ : Type} {M : Sem α β σ} {val : σ → γ} {mark : σ → α → Option γ}

/-- What the marked acts of a log stand for, the last of them. -/
def lastMark (mark : σ → α → Option γ) (l : Log α β σ) : Option γ :=
  (l.filterMap fun e => e.2.elim (mark e.1) fun _ => none).getLast?

theorem lastMark_append (l l' : Log α β σ) : lastMark mark (l ++ l') = (lastMark mark l').or (lastMark mark l) := by
  rw [lastMark, List.filterMap_append, List.getLast?_append]
  rfl

theorem lastMark_test (c : β) (s : σ) (l : Log α β σ) : lastMark mark ((s, .inr c) :: l) = lastMark mark l := by
  simp [lastMark]

/-- A part of the state that holds what the last marked act stood for, and is left alone where there was none. -/
def Latches (M : Sem α β σ) (val : σ → γ) (mark : σ → α → Option γ) (b : Block α β) : Prop :=
  ∀ s, val (b.run M s) = (lastMark mark (b.log M s)).getD (val s)

theorem Latches.nil : Latches M val mark (nil : Block α β) := fun _ => rfl

theorem Latches.act {a : α} (hm : ∀ s, mark s a = none) (h : ∀ s, val (M.exec a s) = val s) :
    Latches M val mark (Block.act a .nil) := fun s => by simp [run, log, lastMark, hm, h]

theorem Latches.append {b k : Block α β} (hb : Latches M val mark b) (hk : Latches M val mark k) :
    Latches M val mark (b ++ k) := fun s => by
  rw [run_append, log_append, hk, hb, lastMark_append]
  cases lastMark mark (k.log M (b.run M s)) <;> rfl

theorem Latches.ifThen {c : β} {t : Block α β} (ht : Latches M val mark t) :
    Latches M val mark (Block.ifThen c t .nil) := fun s => by
  simp only [run, log, List.append_nil, lastMark_test]
  split
  · exact ht s
  · rfl

theorem Latches.ifElse {c : β} {t f : Block α β} (ht : Latches M val mark t) (hf : Latches M val mark f) :
    Latches M val mark (Block.ifElse c t f .nil) := fun s => by
  simp only [run, log, List.append_nil, lastMark_test]
  split
  · exact ht s
  · exact hf s

theorem Latches.ofList : ∀ {l : List α}, (∀ a ∈ l, (∀ s, mark s a = none) ∧ ∀ s, val (M.exec a s) = val s) →
    Latches M val mark (Block.ofList l : Block α β)
  | [], _ => .nil
  | a :: _, h =>
    have ha := h a List.mem_cons_self
    (Latches.act ha.1 ha.2).append (Latches.ofList fun b hb => h b (List.mem_cons_of_mem _ hb))

end Latches

/-- Write the acts out in another language, leaving out those that have no counterpart. -/
def filterMap (f : α → Option α') (g : β → β') : Block α β → Block α' β'
  | nil => nil
  | act a r =>
    match f a with
    | some a' => act a' (r.filterMap f g)
    | none => r.filterMap f g
  | ifThen c t r => ifThen (g c) (t.filterMap f g) (r.filterMap f g)
  | ifElse c t e r => ifElse (g c) (t.filterMap f g) (e.filterMap f g) (r.filterMap f g)

theorem filterMap_append (f : α → Option α') (g : β → β') :
    ∀ b k : Block α β, (b ++ k).filterMap f g = b.filterMap f g ++ k.filterMap f g
  | nil, _ => rfl
  | act a r, k => by
    simp only [act_append, filterMap]
    cases f a with
    | none => exact filterMap_append f g r k
    | some a' => simp only [act_append, filterMap_append f g r k]
  | ifThen c t r, k => by simp only [ifThen_append, filterMap, filterMap_append f g r k]
  | ifElse c t e r, k => by simp only [ifElse_append, filterMap, filterMap_append f g r k]

theorem run_filterMap (M : Sem α' β' σ) (f : α → Option α') (g : β → β') :
    ∀ (b : Block α β) (s : σ), (b.filterMap f g).run M s = b.run (M.pull f g) s
  | nil, _ => rfl
  | act a r, s => by
    simp only [filterMap, run, Sem.pull]
    cases f a with
    | none => exact run_filterMap M f g r s
    | some a' => exact run_filterMap M f g r _
  | ifThen c t r, s => by
    simp only [filterMap, run, run_filterMap M f g r, run_filterMap M f g t]
    rfl
  | ifElse c t e r, s => by
    simp only [filterMap, run, run_filterMap M f g r, run_filterMap M f g t, run_filterMap M f g e]
    rfl

/-- One entry of a log, in the other language. -/
def entry (f : α → Option α') (g : β → β') : σ × (α ⊕ β) → Option (σ × (α' ⊕ β'))
  | (s, .inl a) => (f a).map fun a' => (s, .inl a')
  | (s, .inr b) => some (s, .inr (g b))

theorem log_filterMap (M : Sem α' β' σ) (f : α → Option α') (g : β → β') :
    ∀ (b : Block α β) (s : σ), (b.filterMap f g).log M s = (b.log (M.pull f g) s).filterMap (entry f g)
  | nil, _ => rfl
  | act a r, s => by
    have ih := log_filterMap M f g r ((M.pull f g).exec a s)
    simp only [Sem.pull] at ih
    simp only [filterMap, log, Sem.pull, List.filterMap_cons, entry]
    cases h : f a with
    | none => rw [h] at ih; exact ih
    | some a' => rw [h] at ih; exact congrArg _ ih
  | ifThen c t r, s => by
    simp only [filterMap, log, List.filterMap_cons, entry, List.filterMap_append, log_filterMap M f g r,
      run_filterMap M f g t]
    refine congrArg _ (congrArg₂ _ ?_ rfl)
    change (if M.test (g c) s = true then _ else _) = List.filterMap _ (if M.test (g c) s = true then _ else _)
    split
    · exact log_filterMap M f g t s
    · rfl
  | ifElse c t e r, s => by
    simp only [filterMap, log, List.filterMap_cons, entry, List.filterMap_append, log_filterMap M f g r,
      run_filterMap M f g t, run_filterMap M f g e]
    refine congrArg _ (congrArg₂ _ ?_ rfl)
    change (if M.test (g c) s = true then _ else _) = List.filterMap _ (if M.test (g c) s = true then _ else _)
    split
    · exact log_filterMap M f g t s
    · exact log_filterMap M f g e s

/-- Write the acts out one by one in textual order, threading a state that an act may change. -/
def instantiate (f : ι → α → ι × Option α') (g : ι → β → β') : ι → Block α β → ι × Block α' β'
  | i, nil => (i, nil)
  | i, act a r =>
    let k := instantiate f g (f i a).1 r
    match (f i a).2 with
    | some a' => (k.1, act a' k.2)
    | none => k
  | i, ifThen c t r =>
    let kt := instantiate f g i t
    let k := instantiate f g kt.1 r
    (k.1, ifThen (g i c) kt.2 k.2)
  | i, ifElse c t e r =>
    let kt := instantiate f g i t
    let ke := instantiate f g kt.1 e
    let k := instantiate f g ke.1 r
    (k.1, ifElse (g i c) kt.2 ke.2 k.2)

theorem instantiate_append (f : ι → α → ι × Option α') (g : ι → β → β') : ∀ (b k : Block α β) (i : ι),
    (b ++ k).instantiate f g i =
      ((k.instantiate f g (b.instantiate f g i).1).1,
        (b.instantiate f g i).2 ++ (k.instantiate f g (b.instantiate f g i).1).2)
  | nil, _, _ => rfl
  | act a r, k, i => by
    simp only [act_append, instantiate, instantiate_append f g r k]
    cases (f i a).2 with
    | none => rfl
    | some a' => rfl
  | ifThen c t r, k, i => by simp only [ifThen_append, instantiate, instantiate_append f g r k]
  | ifElse c t e r, k, i => by simp only [ifElse_append, instantiate, instantiate_append f g r k]

/-- Every act of the instance comes from an act of the block. -/
theorem mem_acts_instantiate (f : ι → α → ι × Option α') (g : ι → β → β') :
    ∀ (b : Block α β) (i : ι) {x : α'}, x ∈ (b.instantiate f g i).2.acts → ∃ a ∈ b.acts, ∃ j, (f j a).2 = some x
  | nil, _, _, h => absurd h List.not_mem_nil
  | act a r, i, x, h => by
    simp only [instantiate] at h
    have ih := @mem_acts_instantiate f g r (f i a).1 x
    cases hf : (f i a).2 with
    | none =>
      rw [hf] at h
      obtain ⟨b, hb, hj⟩ := ih h
      exact ⟨b, List.mem_cons_of_mem _ hb, hj⟩
    | some a' =>
      rw [hf] at h
      rcases List.mem_cons.1 h with rfl | h
      · exact ⟨a, List.mem_cons_self, i, hf⟩
      · obtain ⟨b, hb, hj⟩ := ih h
        exact ⟨b, List.mem_cons_of_mem _ hb, hj⟩
  | ifThen c t r, i, x, h => by
    rcases List.mem_append.1 h with h | h
    · obtain ⟨b, hb, hj⟩ := mem_acts_instantiate f g t i h
      exact ⟨b, List.mem_append_left _ hb, hj⟩
    · obtain ⟨b, hb, hj⟩ := mem_acts_instantiate f g r _ h
      exact ⟨b, List.mem_append_right _ hb, hj⟩
  | ifElse c t e r, i, x, h => by
    rcases List.mem_append.1 h with h | h
    · obtain ⟨b, hb, hj⟩ := mem_acts_instantiate f g t i h
      exact ⟨b, List.mem_append_left _ hb, hj⟩
    · rcases List.mem_append.1 h with h | h
      · obtain ⟨b, hb, hj⟩ := mem_acts_instantiate f g e _ h
        exact ⟨b, List.mem_append_right _ (List.mem_append_left _ hb), hj⟩
      · obtain ⟨b, hb, hj⟩ := mem_acts_instantiate f g r _ h
        exact ⟨b, List.mem_append_right _ (List.mem_append_right _ hb), hj⟩

end Block
end Flow
