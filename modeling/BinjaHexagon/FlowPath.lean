import BinjaHexagon.Flow
import Mathlib.Data.List.Forall2
/-!
# FlowPath — what holds at every step of every path

`Along ok pre p`: each step of `p` meets `ok`, a condition on the steps before it, of which `pre` are already taken.
A condition that holds along every path of a block relates two runs of the block step by step.
-/
namespace Flow

variable {ε ε' : Type}

def Along (ok : List ε → ε → Prop) : List ε → List ε → Prop
  | _, [] => True
  | pre, e :: p => ok pre e ∧ Along ok (pre ++ [e]) p

theorem along_append {ok : List ε → ε → Prop} : ∀ {p q pre : List ε},
    Along ok pre (p ++ q) ↔ Along ok pre p ∧ Along ok (pre ++ p) q
  | [], q, pre => by simp [Along]
  | e :: p, q, pre => by
    rw [List.cons_append, Along, along_append (p := p), Along, and_assoc, List.append_assoc, List.singleton_append]

theorem along_map (f : ε' → ε) {ok : List ε → ε → Prop} : ∀ {p pre : List ε'},
    Along ok (pre.map f) (p.map f) ↔ Along (fun pre e => ok (pre.map f) (f e)) pre p
  | [], _ => .rfl
  | e :: p, pre => by
    have ih := @along_map f ok p (pre ++ [e])
    rw [List.map_append, List.map_singleton] at ih
    rw [List.map_cons, Along, Along, ih]

/-- A condition on single steps holds along the path when it holds of all its steps. -/
theorem along_and {ok : List ε → ε → Prop} {F : ε → Prop} : ∀ {p pre : List ε},
    Along ok pre p → (∀ e ∈ p, F e) → Along (fun pre e => ok pre e ∧ F e) pre p
  | [], _, _, _ => trivial
  | e :: _, _, h, hF =>
    ⟨⟨h.1, hF e List.mem_cons_self⟩, along_and h.2 fun x hx => hF x (List.mem_cons_of_mem _ hx)⟩

namespace Block

variable {α β α' β' γ ι σ σ' : Type}

/-- The steps of a path are acts and tests of the block. -/
theorem mem_path : ∀ {b : Block α β} {p : List (α ⊕ β)}, p ∈ b.paths → ∀ e ∈ p,
    e.elim (· ∈ b.acts) (· ∈ b.tests)
  | nil, p, hp, e, he => by
    rw [List.mem_singleton.1 hp] at he
    exact absurd he List.not_mem_nil
  | act a r, p, hp, e, he => by
    obtain ⟨q, hq, rfl⟩ := List.mem_map.1 hp
    rcases List.mem_cons.1 he with rfl | he
    · exact List.mem_cons_self
    · have ih := mem_path hq e he
      cases e with
      | inl x => exact List.mem_cons_of_mem _ ih
      | inr c => exact ih
  | ifThen c t r, p, hp, e, he => by
    obtain ⟨u, hu, hp⟩ := List.mem_flatMap.1 hp
    obtain ⟨q, hq, rfl⟩ := List.mem_map.1 hp
    have ihr := mem_path hq e
    rcases List.mem_cons.1 he with rfl | he
    · exact List.mem_cons_self
    · rcases List.mem_append.1 he with he | he
      · rcases List.mem_cons.1 hu with rfl | hu
        · exact absurd he List.not_mem_nil
        · have iht := mem_path hu e he
          cases e with
          | inl x => exact List.mem_append_left _ iht
          | inr d => exact List.mem_cons_of_mem _ (List.mem_append_left _ iht)
      · cases e with
        | inl x => exact List.mem_append_right _ (ihr he)
        | inr d => exact List.mem_cons_of_mem _ (List.mem_append_right _ (ihr he))
  | ifElse c t f r, p, hp, e, he => by
    obtain ⟨u, hu, hp⟩ := List.mem_flatMap.1 hp
    obtain ⟨q, hq, rfl⟩ := List.mem_map.1 hp
    have ihr := mem_path hq e
    rcases List.mem_cons.1 he with rfl | he
    · exact List.mem_cons_self
    · rcases List.mem_append.1 he with he | he
      · rcases List.mem_append.1 hu with hu | hu
        · have iht := mem_path hu e he
          cases e with
          | inl x => exact List.mem_append_left _ iht
          | inr d => exact List.mem_cons_of_mem _ (List.mem_append_left _ iht)
        · have ihf := mem_path hu e he
          cases e with
          | inl x => exact List.mem_append_right _ (List.mem_append_left _ ihf)
          | inr d => exact List.mem_cons_of_mem _ (List.mem_append_right _ (List.mem_append_left _ ihf))
      · cases e with
        | inl x => exact List.mem_append_right _ (List.mem_append_right _ (ihr he))
        | inr d => exact List.mem_cons_of_mem _ (List.mem_append_right _ (List.mem_append_right _ (ihr he)))

/-- Every test of an instance comes from a test of the block. -/
theorem mem_tests_instantiate (f : ι → α → ι × Option α') (g : ι → β → β') :
    ∀ (b : Block α β) (i : ι) {x : β'}, x ∈ (b.instantiate f g i).2.tests → ∃ c ∈ b.tests, ∃ j, g j c = x
  | nil, _, _, h => absurd h List.not_mem_nil
  | act a r, i, x, h => by
    simp only [instantiate] at h
    have ih := @mem_tests_instantiate f g r (f i a).1 x
    cases hf : (f i a).2 with
    | none => rw [hf] at h; exact ih h
    | some a' => rw [hf] at h; exact ih h
  | ifThen c t r, i, x, h => by
    rcases List.mem_cons.1 h with rfl | h
    · exact ⟨c, List.mem_cons_self, i, rfl⟩
    · rcases List.mem_append.1 h with h | h
      · obtain ⟨d, hd, hj⟩ := mem_tests_instantiate f g t i h
        exact ⟨d, List.mem_cons_of_mem _ (List.mem_append_left _ hd), hj⟩
      · obtain ⟨d, hd, hj⟩ := mem_tests_instantiate f g r _ h
        exact ⟨d, List.mem_cons_of_mem _ (List.mem_append_right _ hd), hj⟩
  | ifElse c t e r, i, x, h => by
    rcases List.mem_cons.1 h with rfl | h
    · exact ⟨c, List.mem_cons_self, i, rfl⟩
    · rcases List.mem_append.1 h with h | h
      · obtain ⟨d, hd, hj⟩ := mem_tests_instantiate f g t i h
        exact ⟨d, List.mem_cons_of_mem _ (List.mem_append_left _ hd), hj⟩
      · rcases List.mem_append.1 h with h | h
        · obtain ⟨d, hd, hj⟩ := mem_tests_instantiate f g e _ h
          exact ⟨d, List.mem_cons_of_mem _ (List.mem_append_right _ (List.mem_append_left _ hd)), hj⟩
        · obtain ⟨d, hd, hj⟩ := mem_tests_instantiate f g r _ h
          exact ⟨d, List.mem_cons_of_mem _ (List.mem_append_right _ (List.mem_append_right _ hd)), hj⟩

theorem mem_paths_append : ∀ {b k : Block α β} {p : List (α ⊕ β)},
    p ∈ (b ++ k).paths ↔ ∃ q ∈ b.paths, ∃ r ∈ k.paths, p = q ++ r
  | nil, k, p => by simp [paths]
  | act a r, k, p => by
    simp only [act_append, paths, List.mem_map, mem_paths_append (b := r)]
    constructor
    · rintro ⟨_, ⟨q, hq, t, ht, rfl⟩, rfl⟩
      exact ⟨_, ⟨q, hq, rfl⟩, t, ht, rfl⟩
    · rintro ⟨_, ⟨q, hq, rfl⟩, t, ht, rfl⟩
      exact ⟨_, ⟨q, hq, t, ht, rfl⟩, rfl⟩
  | ifThen c t r, k, p => by
    simp only [ifThen_append, paths, List.mem_flatMap, List.mem_map, mem_paths_append (b := r)]
    constructor
    · rintro ⟨u, hu, _, ⟨q, hq, v, hv, rfl⟩, rfl⟩
      exact ⟨_, ⟨u, hu, q, hq, rfl⟩, v, hv, by simp⟩
    · rintro ⟨_, ⟨u, hu, q, hq, rfl⟩, v, hv, rfl⟩
      exact ⟨u, hu, _, ⟨q, hq, v, hv, rfl⟩, by simp⟩
  | ifElse c t e r, k, p => by
    simp only [ifElse_append, paths, List.mem_flatMap, List.mem_map, mem_paths_append (b := r)]
    constructor
    · rintro ⟨u, hu, _, ⟨q, hq, v, hv, rfl⟩, rfl⟩
      exact ⟨_, ⟨u, hu, q, hq, rfl⟩, v, hv, by simp⟩
    · rintro ⟨_, ⟨u, hu, q, hq, rfl⟩, v, hv, rfl⟩
      exact ⟨u, hu, _, ⟨q, hq, v, hv, rfl⟩, by simp⟩

theorem paths_ofList : ∀ l : List α, (ofList l : Block α β).paths = [l.map .inl]
  | [] => rfl
  | a :: l => by rw [ofList, paths, paths_ofList l, List.map_singleton, List.map_cons]

theorem paths_ne_nil : ∀ b : Block α β, b.paths ≠ []
  | nil => List.cons_ne_nil _ _
  | act a r => fun h => paths_ne_nil r (List.map_eq_nil_iff.1 h)
  | ifThen c t r => fun h => paths_ne_nil r (List.map_eq_nil_iff.1 (List.flatMap_eq_nil_iff.1 h [] List.mem_cons_self))
  | ifElse c t e r => fun h => by
    rw [paths, List.flatMap_eq_nil_iff] at h
    obtain ⟨u, hu⟩ := List.exists_mem_of_ne_nil _ (paths_ne_nil t)
    exact paths_ne_nil r (List.map_eq_nil_iff.1 (h u (List.mem_append_left _ hu)))

theorem exists_path (b : Block α β) : ∃ p, p ∈ b.paths := List.exists_mem_of_ne_nil _ (paths_ne_nil b)

/-- The paths of an instance are the paths of the block, as far as what `φ` sees of a step does not depend on the
state that is threaded through. -/
theorem paths_instantiate (f : ι → α → ι × Option α') (g : ι → β → β') (φ : α' ⊕ β' → γ) (ψ : α ⊕ β → Option γ)
    (hf : ∀ i a, (f i a).2.map (φ ∘ .inl) = ψ (.inl a)) (hg : ∀ i c, ψ (.inr c) = some (φ (.inr (g i c)))) :
    ∀ (b : Block α β) (i : ι), (b.instantiate f g i).2.paths.map (List.map φ) = b.paths.map (List.filterMap ψ)
  | nil, _ => rfl
  | act a r, i => by
    have ih := paths_instantiate f g φ ψ hf hg r (f i a).1
    have ha := hf i a
    simp only [instantiate, paths, List.map_map]
    cases h : (f i a).2 with
    | none =>
      rw [h] at ha
      simp only [ih]
      exact List.map_congr_left fun p _ => by simp [← ha]
    | some a' =>
      rw [h] at ha
      have hcons : List.map φ ∘ (fun p => (.inl a' : α' ⊕ β') :: p) = (φ (.inl a') :: ·) ∘ List.map φ := rfl
      simp only [paths, List.map_map, hcons]
      rw [← List.map_map, ih, List.map_map]
      exact List.map_congr_left fun p _ => by simp [← ha]
  | ifThen c t r, i => by
    have iht := paths_instantiate f g φ ψ hf hg t i
    have ihr := paths_instantiate f g φ ψ hf hg r (t.instantiate f g i).1
    simp only [instantiate, paths]
    rw [List.map_flatMap, List.map_flatMap]
    have hbr : (([] : List (α' ⊕ β')) :: (t.instantiate f g i).2.paths).map (List.map φ) =
        (([] : List (α ⊕ β)) :: t.paths).map (List.filterMap ψ) := by
      rw [List.map_cons, iht, List.map_cons]; rfl
    exact flatMap_paths hbr ihr (hg i c)
  | ifElse c t e r, i => by
    have iht := paths_instantiate f g φ ψ hf hg t i
    have ihe := paths_instantiate f g φ ψ hf hg e (t.instantiate f g i).1
    have ihr := paths_instantiate f g φ ψ hf hg r (e.instantiate f g (t.instantiate f g i).1).1
    simp only [instantiate, paths]
    rw [List.map_flatMap, List.map_flatMap]
    refine flatMap_paths ?_ ihr (hg i c)
    rw [List.map_append, iht, ihe, List.map_append]
where
  /-- A test, one of its branches, and what follows. -/
  flatMap_paths {ps : List (List (α' ⊕ β'))} {qs : List (List (α ⊕ β))} {rs : List (List (α' ⊕ β'))}
      {ts : List (List (α ⊕ β))} {c' : β'} {c : β} (hp : ps.map (List.map φ) = qs.map (List.filterMap ψ))
      (hr : rs.map (List.map φ) = ts.map (List.filterMap ψ)) (hc : ψ (.inr c) = some (φ (.inr c'))) :
      (ps.flatMap fun p => (rs.map fun q => .inr c' :: (p ++ q)).map (List.map φ)) =
        qs.flatMap fun p => (ts.map fun q => .inr c :: (p ++ q)).map (List.filterMap ψ) := by
    have h1 : (ps.flatMap fun p => (rs.map fun q => .inr c' :: (p ++ q)).map (List.map φ)) =
        (ps.map (List.map φ)).flatMap fun p => (rs.map (List.map φ)).map fun q => φ (.inr c') :: (p ++ q) := by
      simp [List.flatMap_map, Function.comp_def]
    have h2 : (qs.flatMap fun p => (ts.map fun q => .inr c :: (p ++ q)).map (List.filterMap ψ)) =
        (qs.map (List.filterMap ψ)).flatMap fun p =>
          (ts.map (List.filterMap ψ)).map fun q => φ (.inr c') :: (p ++ q) := by
      simp [List.flatMap_map, Function.comp_def, hc]
    rw [h1, h2, hp, hr]

/-- **Two runs side by side**: a relation that every step keeps, under a condition that holds along every path, relates
the two states at the end. -/
theorem run_refines (M : Sem α β σ) (M' : Sem α β σ') {R : List (α ⊕ β) → σ → σ' → Prop}
    {ok : List (α ⊕ β) → α ⊕ β → Prop}
    (hact : ∀ pre a s s', ok pre (.inl a) → R pre s s' → R (pre ++ [.inl a]) (M.exec a s) (M'.exec a s'))
    (htest : ∀ pre c s s', ok pre (.inr c) → R pre s s' → M.test c s = M'.test c s' ∧ R (pre ++ [.inr c]) s s') :
    ∀ (b : Block α β) (pre : List (α ⊕ β)) (s : σ) (s' : σ'), (∀ p ∈ b.paths, Along ok pre p) → R pre s s' →
      ∃ p ∈ b.paths, R (pre ++ p) (b.run M s) (b.run M' s')
  | nil, pre, s, s', _, hR => ⟨[], List.mem_singleton.2 rfl, by rwa [List.append_nil]⟩
  | act a r, pre, s, s', hp, hR => by
    have hstep : ∀ p ∈ r.paths, ok pre (.inl a) ∧ Along ok (pre ++ [.inl a]) p :=
      fun p h => hp _ (List.mem_map.2 ⟨p, h, rfl⟩)
    obtain ⟨q, hq⟩ := exists_path r
    obtain ⟨p, hpr, hRp⟩ := run_refines M M' hact htest r (pre ++ [.inl a]) _ _ (fun p h => (hstep p h).2)
      (hact pre a s s' (hstep q hq).1 hR)
    exact ⟨_, List.mem_map.2 ⟨p, hpr, rfl⟩, by rwa [List.append_assoc] at hRp⟩
  | ifThen c t r, pre, s, s', hp, hR => by
    have hstep : ∀ p ∈ [] :: t.paths, ∀ q ∈ r.paths, ok pre (.inr c) ∧ Along ok (pre ++ [.inr c]) (p ++ q) :=
      fun p h q hq => hp _ (List.mem_flatMap.2 ⟨p, h, List.mem_map.2 ⟨q, hq, rfl⟩⟩)
    obtain ⟨q, hq⟩ := exists_path r
    obtain ⟨htst, hR'⟩ := htest pre c s s' (hstep [] List.mem_cons_self q hq).1 hR
    obtain ⟨p, hpt, hRt⟩ : ∃ p ∈ [] :: t.paths, R (pre ++ [.inr c] ++ p) (if M.test c s then t.run M s else s)
        (if M'.test c s' then t.run M' s' else s') := by
      rw [← htst]
      cases hc : M.test c s with
      | false => exact ⟨[], List.mem_cons_self, by simpa [hc] using hR'⟩
      | true =>
        obtain ⟨p, hpt, h⟩ := run_refines M M' hact htest t (pre ++ [.inr c]) s s'
          (fun p h => (along_append.1 (hstep p (List.mem_cons_of_mem _ h) q hq).2).1) hR'
        exact ⟨p, List.mem_cons_of_mem _ hpt, by simpa [hc] using h⟩
    obtain ⟨q, hqr, h⟩ := run_refines M M' hact htest r (pre ++ [.inr c] ++ p) _ _
      (fun q h => (along_append.1 (hstep p hpt q h).2).2) hRt
    exact ⟨_, List.mem_flatMap.2 ⟨p, hpt, List.mem_map.2 ⟨q, hqr, rfl⟩⟩, by simpa [run] using h⟩
  | ifElse c t e r, pre, s, s', hp, hR => by
    have hstep : ∀ p ∈ t.paths ++ e.paths, ∀ q ∈ r.paths, ok pre (.inr c) ∧ Along ok (pre ++ [.inr c]) (p ++ q) :=
      fun p h q hq => hp _ (List.mem_flatMap.2 ⟨p, h, List.mem_map.2 ⟨q, hq, rfl⟩⟩)
    obtain ⟨q, hq⟩ := exists_path r
    obtain ⟨u, hu⟩ := exists_path t
    obtain ⟨htst, hR'⟩ := htest pre c s s' (hstep u (List.mem_append_left _ hu) q hq).1 hR
    obtain ⟨p, hpt, hRt⟩ : ∃ p ∈ t.paths ++ e.paths, R (pre ++ [.inr c] ++ p)
        (if M.test c s then t.run M s else e.run M s) (if M'.test c s' then t.run M' s' else e.run M' s') := by
      rw [← htst]
      cases hc : M.test c s with
      | true =>
        obtain ⟨p, hpt, h⟩ := run_refines M M' hact htest t (pre ++ [.inr c]) s s'
          (fun p h => (along_append.1 (hstep p (List.mem_append_left _ h) q hq).2).1) hR'
        exact ⟨p, List.mem_append_left _ hpt, by simpa [hc] using h⟩
      | false =>
        obtain ⟨p, hpt, h⟩ := run_refines M M' hact htest e (pre ++ [.inr c]) s s'
          (fun p h => (along_append.1 (hstep p (List.mem_append_right _ h) q hq).2).1) hR'
        exact ⟨p, List.mem_append_right _ hpt, by simpa [hc] using h⟩
    obtain ⟨q, hqr, h⟩ := run_refines M M' hact htest r (pre ++ [.inr c] ++ p) _ _
      (fun q h => (along_append.1 (hstep p hpt q h).2).2) hRt
    exact ⟨_, List.mem_flatMap.2 ⟨p, hpt, List.mem_map.2 ⟨q, hqr, rfl⟩⟩, by simpa [run] using h⟩

/-- **Two machines in lockstep**: where related states stay related and agree on the tests, as far as the steps the
first one takes are fine, the second takes the same steps. -/
theorem run_lockstep (M : Sem α β σ) (M' : Sem α β σ') {R : σ → σ' → Prop} {ok : σ → α ⊕ β → Prop}
    (hact : ∀ a s s', ok s (.inl a) → R s s' → R (M.exec a s) (M'.exec a s'))
    (htest : ∀ c s s', ok s (.inr c) → R s s' → M.test c s = M'.test c s') :
    ∀ (b : Block α β) (s : σ) (s' : σ'), (∀ x ∈ b.log M s, ok x.1 x.2) → R s s' →
      R (b.run M s) (b.run M' s') ∧ List.Forall₂ (fun x y => x.2 = y.2 ∧ R x.1 y.1) (b.log M s) (b.log M' s')
  | nil, _, _, _, hR => ⟨hR, .nil⟩
  | act a r, s, s', hok, hR => by
    obtain ⟨ha, hr⟩ := List.forall_mem_cons.1 hok
    obtain ⟨hrun, hlog⟩ := run_lockstep M M' hact htest r _ _ hr (hact a s s' ha hR)
    exact ⟨hrun, .cons ⟨rfl, hR⟩ hlog⟩
  | ifThen c t r, s, s', hok, hR => by
    obtain ⟨hc, hrest⟩ := List.forall_mem_cons.1 hok
    obtain ⟨ht, hr⟩ := List.forall_mem_append.1 hrest
    have hinner : R (if M.test c s then t.run M s else s) (if M'.test c s' then t.run M' s' else s') ∧
        List.Forall₂ (fun x y => x.2 = y.2 ∧ R x.1 y.1) (if M.test c s then t.log M s else [])
          (if M'.test c s' then t.log M' s' else []) := by
      rw [← htest c s s' hc hR]
      cases hcase : M.test c s with
      | false => exact ⟨by simpa using hR, by simp⟩
      | true =>
        have := run_lockstep M M' hact htest t s s' (by simpa [hcase] using ht) hR
        simpa using this
    obtain ⟨hrun, hlog⟩ := run_lockstep M M' hact htest r _ _ hr hinner.1
    exact ⟨hrun, .cons ⟨rfl, hR⟩ (List.rel_append hinner.2 hlog)⟩
  | ifElse c t f r, s, s', hok, hR => by
    obtain ⟨hc, hrest⟩ := List.forall_mem_cons.1 hok
    obtain ⟨ht, hr⟩ := List.forall_mem_append.1 hrest
    have hinner : R (if M.test c s then t.run M s else f.run M s) (if M'.test c s' then t.run M' s' else f.run M' s') ∧
        List.Forall₂ (fun x y => x.2 = y.2 ∧ R x.1 y.1) (if M.test c s then t.log M s else f.log M s)
          (if M'.test c s' then t.log M' s' else f.log M' s') := by
      rw [← htest c s s' hc hR]
      cases hcase : M.test c s with
      | false =>
        have := run_lockstep M M' hact htest f s s' (by simpa [hcase] using ht) hR
        simpa using this
      | true =>
        have := run_lockstep M M' hact htest t s s' (by simpa [hcase] using ht) hR
        simpa using this
    obtain ⟨hrun, hlog⟩ := run_lockstep M M' hact htest r _ _ hr hinner.1
    exact ⟨hrun, .cons ⟨rfl, hR⟩ (List.rel_append hinner.2 hlog)⟩

/-- **A run and its log side by side**: what every step keeps holds of the state at the end and the log until there. -/
theorem run_log_induction (M : Sem α β σ) {I : Log α β σ → σ → Prop} : ∀ (b : Block α β),
    (∀ a ∈ b.acts, ∀ l s, I l s → I (l ++ [(s, .inl a)]) (M.exec a s)) →
    (∀ c l s, I l s → I (l ++ [(s, .inr c)]) s) → ∀ l s, I l s → I (l ++ b.log M s) (b.run M s)
  | nil, _, _, l, s, h => by rwa [log, List.append_nil]
  | act a r, ha, hc, l, s, h => by
    have := run_log_induction M r (fun x hx => ha x (List.mem_cons_of_mem _ hx)) hc _ _ (ha a List.mem_cons_self l s h)
    rwa [List.append_assoc] at this
  | ifThen c t r, ha, hc, l, s, h => by
    have hmid : I (l ++ [(s, .inr c)] ++ if M.test c s then t.log M s else [])
        (if M.test c s then t.run M s else s) := by
      split
      · exact run_log_induction M t (fun x hx => ha x (List.mem_append_left _ hx)) hc _ _ (hc c l s h)
      · rw [List.append_nil]
        exact hc c l s h
    have := run_log_induction M r (fun x hx => ha x (List.mem_append_right _ hx)) hc _ _ hmid
    simpa only [run, log, List.append_assoc, List.cons_append, List.nil_append] using this
  | ifElse c t e r, ha, hc, l, s, h => by
    have hmid : I (l ++ [(s, .inr c)] ++ if M.test c s then t.log M s else e.log M s)
        (if M.test c s then t.run M s else e.run M s) := by
      split
      · exact run_log_induction M t (fun x hx => ha x (List.mem_append_left _ hx)) hc _ _ (hc c l s h)
      · exact run_log_induction M e (fun x hx => ha x (List.mem_append_right _ (List.mem_append_left _ hx))) hc _ _
          (hc c l s h)
    have := run_log_induction M r (fun x hx => ha x (List.mem_append_right _ (List.mem_append_right _ hx))) hc _ _ hmid
    simpa only [run, log, List.append_assoc, List.cons_append, List.nil_append] using this

end Block
end Flow
