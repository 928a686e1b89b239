import Mathlib.Data.Finset.Card
import Mathlib.Data.List.Forall2
import Mathlib.Data.List.Perm.Basic
/-!
# Allotment — resources handed out, first free first served

Each of a list of requests names the sets of resources that would do, and takes the first of them that is free.  Where
the sets of a request can be exchanged for one another without harm to the requests behind it, greedy is best: it
serves everyone whenever that can be done at all.
-/
namespace Allotment

variable {ρ : Type} [DecidableEq ρ]

/-- The first set of which nothing is in use. -/
def pick (used : Finset ρ) (sets : List (Finset ρ)) : Option (Finset ρ) := sets.find? fun a => decide (Disjoint used a)

/-- The requests served one after another. -/
def allot : Finset ρ → List (List (Finset ρ)) → Option (List (Finset ρ))
  | _, [] => some []
  | used, sets :: rest => (pick used sets).bind fun a => (allot (used ∪ a) rest).map (a :: ·)

/-- One set for each request, none in use before and no two with a resource in common. -/
structure Shares (used : Finset ρ) (reqs : List (List (Finset ρ))) (c : List (Finset ρ)) : Prop where
  mem : List.Forall₂ (fun sets a => a ∈ sets) reqs c
  free : ∀ a ∈ c, Disjoint used a
  apart : c.Pairwise Disjoint

/-- `b` can stand for `a` as far as the requests `rest` go: the resources are permuted among the two sets. -/
structure Exchange (a b : Finset ρ) (rest : List (List (Finset ρ))) (π : Equiv.Perm ρ) : Prop where
  map : b.map π.toEmbedding = a
  fix : ∀ x, x ∉ a → x ∉ b → π x = x
  rest : ∀ sets ∈ rest, ∀ c ∈ sets, c.map π.toEmbedding ∈ sets

/-- Any two sets of a request can be exchanged as far as the requests behind it go. -/
def Fair : List (List (Finset ρ)) → Prop
  | [] => True
  | sets :: rest => (∀ a ∈ sets, ∀ b ∈ sets, ∃ π, Exchange a b rest π) ∧ Fair rest

variable {used : Finset ρ} {sets : List (Finset ρ)} {rest reqs : List (List (Finset ρ))} {a b : Finset ρ}
    {c : List (Finset ρ)}

theorem pick_some (h : pick used sets = some a) : a ∈ sets ∧ Disjoint used a :=
  ⟨List.mem_of_find?_eq_some h, by simpa using List.find?_some h⟩

theorem exists_pick (ha : a ∈ sets) (hfree : Disjoint used a) : ∃ b, pick used sets = some b := by
  have h := List.find?_isSome (p := fun a => decide (Disjoint used a)).2 ⟨a, ha, by simpa using hfree⟩
  exact Option.isSome_iff_exists.1 h

/-- The first request apart, its set is in use for the others. -/
theorem shares_cons : Shares used (sets :: rest) (a :: c) ↔ a ∈ sets ∧ Disjoint used a ∧ Shares (used ∪ a) rest c := by
  constructor
  · rintro ⟨hmem, hfree, hapart⟩
    obtain ⟨ha, hc⟩ := List.forall₂_cons.1 hmem
    obtain ⟨hac, hcc⟩ := List.pairwise_cons.1 hapart
    refine ⟨ha, hfree a List.mem_cons_self, hc, fun b hb => ?_, hcc⟩
    exact Finset.disjoint_union_left.2 ⟨hfree b (List.mem_cons_of_mem _ hb), hac b hb⟩
  · rintro ⟨ha, hfree, h⟩
    refine ⟨.cons ha h.mem, fun b hb => ?_, List.pairwise_cons.2 ⟨fun b hb => ?_, h.apart⟩⟩
    · rcases List.mem_cons.1 hb with rfl | hb
      · exact hfree
      · exact (Finset.disjoint_union_left.1 (h.free b hb)).1
    · exact (Finset.disjoint_union_left.1 (h.free b hb)).2

theorem allot_some : ∀ {reqs : List (List (Finset ρ))} {used : Finset ρ} {c : List (Finset ρ)},
    allot used reqs = some c → Shares used reqs c
  | [], _, _, h => by
    cases h
    exact ⟨.nil, fun _ h => absurd h List.not_mem_nil, .nil⟩
  | sets :: rest, used, c, h => by
    simp only [allot, Option.bind_eq_some_iff, Option.map_eq_some_iff] at h
    obtain ⟨a, ha, c', hc', rfl⟩ := h
    obtain ⟨hmem, hfree⟩ := pick_some ha
    exact shares_cons.2 ⟨hmem, hfree, allot_some hc'⟩

/-- The requests behind an exchange are served as before, with their resources permuted. -/
theorem Exchange.shares {π : Equiv.Perm ρ} (h : Exchange a b rest π) (ha : Disjoint used a) (hb : Disjoint used b)
    (hc : Shares (used ∪ b) rest c) : Shares (used ∪ a) rest (c.map fun s => s.map π.toEmbedding) := by
  have hused : used.map π.toEmbedding = used := by
    refine Finset.eq_of_subset_of_card_le (fun y hy => ?_) (Finset.card_map _).ge
    obtain ⟨x, hx, rfl⟩ := Finset.mem_map.1 hy
    have hfix := h.fix x (Finset.disjoint_left.1 ha hx) (Finset.disjoint_left.1 hb hx)
    rwa [Equiv.coe_toEmbedding, hfix]
  have hunion : (used ∪ b).map π.toEmbedding = used ∪ a := by rw [Finset.map_union, hused, h.map]
  refine ⟨?_, fun s hs => ?_, List.pairwise_map.2 (hc.apart.imp fun hst => (Finset.disjoint_map _).2 hst)⟩
  · rw [List.forall₂_map_right_iff]
    have hmem : ∀ {reqs : List (List (Finset ρ))} {c : List (Finset ρ)}, (∀ sets ∈ reqs, sets ∈ rest) →
        List.Forall₂ (fun sets a => a ∈ sets) reqs c →
          List.Forall₂ (fun sets s => s.map π.toEmbedding ∈ sets) reqs c := by
      intro reqs c hsub hall
      induction hall with
      | nil => exact .nil
      | cons hs _ ih =>
        exact .cons (h.rest _ (hsub _ List.mem_cons_self) _ hs) (ih fun t ht => hsub t (List.mem_cons_of_mem _ ht))
    exact hmem (fun _ h => h) hc.mem
  · obtain ⟨t, ht, rfl⟩ := List.mem_map.1 hs
    rw [← hunion]
    exact (Finset.disjoint_map _).2 (hc.free t ht)

/-- Whatever can be handed out to fair requests, greedy hands out too. -/
theorem exists_allot : ∀ {reqs : List (List (Finset ρ))} {used : Finset ρ} {c : List (Finset ρ)}, Fair reqs →
    Shares used reqs c → ∃ d, allot used reqs = some d
  | [], _, _, _, _ => ⟨[], rfl⟩
  | sets :: rest, used, [], _, h => by cases h.mem
  | sets :: rest, used, b :: c, hfair, h => by
    obtain ⟨hb, hfree, hc⟩ := shares_cons.1 h
    obtain ⟨a, ha⟩ := exists_pick hb hfree
    obtain ⟨hmem, hfreea⟩ := pick_some ha
    obtain ⟨π, hπ⟩ := hfair.1 a hmem b hb
    obtain ⟨d, hd⟩ := exists_allot hfair.2 (hπ.shares hfreea hfree hc)
    exact ⟨a :: d, by rw [allot, ha, Option.bind_some, hd, Option.map_some]⟩

/-- **Greedy serves fair requests exactly when there is a way to serve them all.** -/
theorem exists_allot_iff (hfair : Fair reqs) : (∃ c, allot used reqs = some c) ↔ ∃ c, Shares used reqs c :=
  ⟨fun ⟨c, hc⟩ => ⟨c, allot_some hc⟩, fun ⟨_, hc⟩ => exists_allot hfair hc⟩

theorem allot_append : ∀ (reqs reqs' : List (List (Finset ρ))) (used : Finset ρ), allot used (reqs ++ reqs') =
    (allot used reqs).bind fun c => (allot (c.foldl (· ∪ ·) used) reqs').map (c ++ ·)
  | [], reqs', used => by
    rw [List.nil_append, allot, Option.bind_some, List.foldl_nil]
    cases allot used reqs' <;> rfl
  | sets :: reqs, reqs', used => by
    rw [List.cons_append, allot, allot]
    cases pick used sets with
    | none => rfl
    | some a =>
      rw [Option.bind_some, Option.bind_some, allot_append reqs reqs' (used ∪ a)]
      cases allot (used ∪ a) reqs with
      | none => rfl
      | some c =>
        rw [Option.bind_some, Option.map_some, Option.bind_some, List.foldl_cons, Option.map_map]
        rfl

omit [DecidableEq ρ] in
/-- The order of the requests does not matter to what can be handed out. -/
theorem shares_perm {reqs' : List (List (Finset ρ))} (h : reqs.Perm reqs') :
    (∃ c, Shares used reqs c) ↔ ∃ c, Shares used reqs' c := by
  have himp : ∀ {reqs reqs' : List (List (Finset ρ))}, reqs.Perm reqs' → (∃ c, Shares used reqs' c) →
      ∃ c, Shares used reqs c := by
    rintro reqs reqs' h ⟨c, hmem, hfree, hapart⟩
    obtain ⟨d, hd, hperm⟩ := List.perm_comp_forall₂ h hmem
    exact ⟨d, hd, fun a ha => hfree a (hperm.mem_iff.1 ha), (hperm.pairwise_iff fun h => h.symm).2 hapart⟩
  exact ⟨himp h.symm, himp h⟩

section Stages

variable {α : Type}

/-- The items a stage serves, and the sets that would do for each. -/
structure Stage (α ρ : Type) where
  takes : α → Bool
  sets : α → List (Finset ρ)

/-- What an item asks for, of the first stage that takes it; where none does it asks for nothing. -/
def wants : List (Stage α ρ) → α → List (Finset ρ)
  | [], _ => [∅]
  | p :: ps, x => if p.takes x then p.sets x else wants ps x

/-- The requests in the order the stages serve them. -/
def requests : List (Stage α ρ) → List α → List (List (Finset ρ))
  | [], l => l.map fun _ => [∅]
  | p :: ps, l => (l.filter p.takes).map p.sets ++ requests ps (l.filter fun x => !p.takes x)

/-- Any two sets of an item can be exchanged as far as its own stage and those behind it go. -/
def FairStages : List (Stage α ρ) → Prop
  | [] => True
  | p :: ps => (∀ x, p.takes x = true → ∀ a ∈ p.sets x, ∀ b ∈ p.sets x, ∃ π : Equiv.Perm ρ,
      b.map π.toEmbedding = a ∧ (∀ y, y ∉ a → y ∉ b → π y = y) ∧
        ∀ q ∈ p :: ps, ∀ y, q.takes y = true → ∀ c ∈ q.sets y, c.map π.toEmbedding ∈ q.sets y) ∧ FairStages ps

omit [DecidableEq ρ] in
theorem requests_perm : ∀ (ps : List (Stage α ρ)) (l : List α), (requests ps l).Perm (l.map (wants ps))
  | [], _ => .rfl
  | p :: ps, l => by
    have hyes : (l.filter p.takes).map p.sets = (l.filter p.takes).map (wants (p :: ps)) :=
      List.map_congr_left fun x hx => by rw [wants, if_pos (List.mem_filter.1 hx).2]
    have hno : (l.filter fun x => !p.takes x).map (wants ps) = (l.filter fun x => !p.takes x).map (wants (p :: ps)) :=
      List.map_congr_left fun x hx => by rw [wants, if_neg (by simpa using (List.mem_filter.1 hx).2)]
    rw [requests, hyes]
    refine ((requests_perm ps _).append_left _).trans ?_
    rw [hno, ← List.map_append]
    exact (List.filter_append_perm p.takes l).map _

omit [DecidableEq ρ] in
/-- A request behind some stages is nothing, or made by one of them. -/
theorem mem_requests : ∀ {ps : List (Stage α ρ)} {l : List α} {sets : List (Finset ρ)}, sets ∈ requests ps l →
    sets = [∅] ∨ ∃ q ∈ ps, ∃ y, q.takes y = true ∧ sets = q.sets y
  | [], l, sets, h => by
    obtain ⟨_, -, rfl⟩ := List.mem_map.1 h
    exact .inl rfl
  | p :: ps, l, sets, h => by
    rcases List.mem_append.1 h with h | h
    · obtain ⟨y, hy, rfl⟩ := List.mem_map.1 h
      exact .inr ⟨p, List.mem_cons_self, y, (List.mem_filter.1 hy).2, rfl⟩
    · rcases mem_requests h with rfl | ⟨q, hq, hy⟩
      · exact .inl rfl
      · exact .inr ⟨q, List.mem_cons_of_mem _ hq, hy⟩

omit [DecidableEq ρ] in
theorem fair_requests : ∀ {ps : List (Stage α ρ)} (l : List α), FairStages ps → Fair (requests ps l)
  | [], l, _ => by
    rw [requests]
    induction l with
    | nil => trivial
    | cons x l ih =>
      refine ⟨fun a ha b hb => ⟨Equiv.refl ρ, ?_, fun _ _ _ => rfl, fun sets hsets c hc => ?_⟩, ih⟩
      · rw [List.mem_singleton.1 ha, List.mem_singleton.1 hb, Finset.map_empty]
      · rwa [Equiv.refl_toEmbedding, Finset.map_refl]
  | p :: ps, l, h => by
    have hrest := fair_requests (l.filter fun x => !p.takes x) h.2
    have hserve : ∀ m : List α, (∀ x ∈ m, p.takes x = true) →
        Fair (m.map p.sets ++ requests ps (l.filter fun x => !p.takes x)) := by
      intro m hm
      induction m with
      | nil => exact hrest
      | cons x m ih =>
        refine ⟨fun a ha b hb => ?_, ih fun y hy => hm y (List.mem_cons_of_mem _ hy)⟩
        obtain ⟨π, hmap, hfix, hkeeps⟩ := h.1 x (hm x List.mem_cons_self) a ha b hb
        refine ⟨π, hmap, hfix, fun sets hsets c hc => ?_⟩
        rcases List.mem_append.1 hsets with hsets | hsets
        · obtain ⟨y, hy, rfl⟩ := List.mem_map.1 hsets
          exact hkeeps p List.mem_cons_self y (hm y (List.mem_cons_of_mem _ hy)) c hc
        · rcases mem_requests hsets with rfl | ⟨q, hq, y, hy, rfl⟩
          · rw [List.mem_singleton.1 hc, Finset.map_empty]
            exact List.mem_singleton_self _
          · exact hkeeps q (List.mem_cons_of_mem _ hq) y hy c hc
    exact hserve _ fun x hx => (List.mem_filter.1 hx).2

/-- **Fair stages serve all items exactly when they can share the resources**, whatever the order of the items. -/
theorem allot_requests_iff {ps : List (Stage α ρ)} (h : FairStages ps) (l : List α) :
    (∃ c, allot used (requests ps l) = some c) ↔ ∃ c, Shares used (l.map (wants ps)) c :=
  (exists_allot_iff (fair_requests l h)).trans (shares_perm (requests_perm ps l))

end Stages

end Allotment
