import Mathlib.Data.List.Chain
/-!
# Descent — places handed out from the top down

One place for each of a list of tests, always the highest the test takes below the place before; place 0 can be handed
out again and again.  Greedy is best: where it finds no place, no other choice finds one for every test.
-/
namespace Descent

/-- The highest place up to `n` that `p` takes. -/
def pick (p : Nat → Bool) : Nat → Option Nat
  | 0 => if p 0 then some 0 else none
  | n + 1 => if p (n + 1) then some (n + 1) else pick p n

/-- A place for every test, from `n` down. -/
def assign : List (Nat → Bool) → Nat → Option (List Nat)
  | [], _ => some []
  | p :: ps, n => (pick p n).bind fun s => (assign ps (s - 1)).map (s :: ·)

/-- Places that could be handed out from `n` down. -/
def Falls : Nat → List Nat → Prop
  | _, [] => True
  | n, s :: l => s ≤ n ∧ Falls (s - 1) l

/-- Every place is one its test takes. -/
abbrev Takes (ps : List (Nat → Bool)) (l : List Nat) : Prop := List.Forall₂ (fun p s => p s = true) ps l

variable {p : Nat → Bool} {ps : List (Nat → Bool)}

theorem pick_some : ∀ {n s : Nat}, pick p n = some s → p s = true ∧ s ≤ n
  | 0, s, h => by
    unfold pick at h
    by_cases hp : p 0 = true
    · rw [if_pos hp] at h
      cases h
      exact ⟨hp, Nat.le_refl 0⟩
    · rw [if_neg hp] at h
      cases h
  | n + 1, s, h => by
    unfold pick at h
    by_cases hp : p (n + 1) = true
    · rw [if_pos hp] at h
      cases h
      exact ⟨hp, Nat.le_refl _⟩
    · rw [if_neg hp] at h
      obtain ⟨hps, hle⟩ := pick_some h
      exact ⟨hps, Nat.le_succ_of_le hle⟩

/-- No place the test takes lies between the one picked and the top. -/
theorem pick_greatest {t : Nat} (hp : p t = true) : ∀ {n : Nat}, t ≤ n → ∃ s, pick p n = some s ∧ t ≤ s
  | 0, ht => by
    obtain rfl := Nat.le_zero.1 ht
    exact ⟨0, by rw [pick, if_pos hp], Nat.le_refl 0⟩
  | n + 1, ht => by
    by_cases hn : p (n + 1) = true
    · exact ⟨n + 1, by rw [pick, if_pos hn], ht⟩
    · have hlt : t ≠ n + 1 := fun h => hn (h ▸ hp)
      obtain ⟨s, hs, hle⟩ := pick_greatest hp (n := n) (by omega)
      exact ⟨s, by rw [pick, if_neg hn, hs], hle⟩

theorem Falls.mono : ∀ {l : List Nat} {m n : Nat}, m ≤ n → Falls m l → Falls n l
  | [], _, _, _, _ => trivial
  | _ :: _, _, _, hmn, h => ⟨h.1.trans hmn, h.2⟩

/-- Handed-out places: each stands below the one before, unless it is 0. -/
theorem falls_iff : ∀ {l : List Nat} {n : Nat},
    Falls n l ↔ (∀ s ∈ l.head?, s ≤ n) ∧ l.IsChain fun a b => b < a ∨ b = 0
  | [], _ => by simp [Falls]
  | s :: l, n => by
    have hstep : ∀ t, t ≤ s - 1 ↔ t < s ∨ t = 0 := fun t => by omega
    simp only [Falls, falls_iff (n := s - 1), hstep, List.isChain_cons, List.head?_cons, Option.mem_some_iff,
      forall_eq']

theorem Falls.sorted : ∀ {l : List Nat} {n : Nat}, Falls n l → l.Pairwise (fun a b => b ≤ a) ∧ ∀ s ∈ l, s ≤ n
  | [], _, _ => ⟨.nil, fun _ h => absurd h List.not_mem_nil⟩
  | s :: l, n, h => by
    obtain ⟨hsorted, hle⟩ := Falls.sorted h.2
    refine ⟨.cons (fun t ht => (hle t ht).trans (Nat.sub_le s 1)) hsorted, fun t ht => ?_⟩
    rcases List.mem_cons.1 ht with rfl | ht
    · exact h.1
    · exact (hle t ht).trans ((Nat.sub_le s 1).trans h.1)

theorem assign_some : ∀ {ps : List (Nat → Bool)} {n : Nat} {l : List Nat}, assign ps n = some l →
    Takes ps l ∧ Falls n l
  | [], _, _, h => by
    cases h
    exact ⟨.nil, trivial⟩
  | p :: ps, n, l, h => by
    simp only [assign, Option.bind_eq_some_iff, Option.map_eq_some_iff] at h
    obtain ⟨s, hs, r, hr, rfl⟩ := h
    obtain ⟨hp, hle⟩ := pick_some hs
    obtain ⟨htakes, hfalls⟩ := assign_some hr
    exact ⟨.cons hp htakes, hle, hfalls⟩

/-- Whatever can be handed out, greedy hands out too, and nowhere lower. -/
theorem exists_assign : ∀ {ps : List (Nat → Bool)} {n : Nat} {c : List Nat}, Takes ps c → Falls n c →
    ∃ l, assign ps n = some l
  | _, _, _, .nil, _ => ⟨[], rfl⟩
  | p :: ps, n, t :: c, .cons hp htakes, hfalls => by
    obtain ⟨s, hs, hle⟩ := pick_greatest hp hfalls.1
    obtain ⟨l, hl⟩ := exists_assign htakes (hfalls.2.mono (Nat.sub_le_sub_right hle 1))
    exact ⟨s :: l, by rw [assign, hs, Option.bind_some, hl, Option.map_some]⟩

end Descent
