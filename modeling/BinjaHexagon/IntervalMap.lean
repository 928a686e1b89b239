import Mathlib.Data.List.Pairwise
import Mathlib.Order.Lattice
import Mathlib.Order.BoundedOrder.Basic
import Mathlib.Tactic.Common
/-!
# IntervalMap — a value for every key, kept as the keys where it changes

`IntervalMap` of `interval_map.h`: an entry gives its value to the keys from its own up to the next entry's.  There is
always an entry at the least key.
-/
namespace IntervalEntries

section Entries

variable {κ ν : Type} [LinearOrder κ]

/-- The value at `upper_bound(k)`, one entry back. -/
def valueAt (d : ν) (k : κ) : List (κ × ν) → ν
  | [] => d
  | e :: l => if e.1 ≤ k then valueAt e.2 k l else d

/-- `MakeEntry`: a new entry takes the value of the entry before it, `d` being that of the one before the list. -/
def makeEntry (d : ν) (k : κ) : List (κ × ν) → List (κ × ν)
  | [] => [(k, d)]
  | e :: l => if k = e.1 then e :: l else if k < e.1 then (k, d) :: e :: l else e :: makeEntry e.2 k l

/-- The entry at `lo` gets its value, and those up to the entry at `hi` are erased. -/
def overwrite (lo hi : κ) (v : ν) : List (κ × ν) → List (κ × ν)
  | [] => []
  | e :: l => if e.1 = lo then (lo, v) :: l.dropWhile (·.1 ≠ hi) else e :: overwrite lo hi v l

section Duplicates

variable [DecidableEq ν]

/-- Erases the first entry if its value is `v`. -/
def dropSame (v : ν) : List (κ × ν) → List (κ × ν)
  | [] => []
  | e :: l => if e.2 = v then l else e :: l

/-- `RemoveDuplicates(lower_bound(k))`; `prev` is the value of the entry before the list. -/
def removeDuplicates (prev : Option ν) (k : κ) : List (κ × ν) → List (κ × ν)
  | [] => []
  | e :: l =>
    if k ≤ e.1 then if prev = some e.2 then dropSame e.2 l else e :: dropSame e.2 l
    else e :: removeDuplicates (some e.2) k l

end Duplicates

/-- The keys grow. -/
abbrev Sorted (l : List (κ × ν)) : Prop := l.Pairwise fun a b => a.1 < b.1

theorem valueAt_of_lt {d : ν} {k : κ} : ∀ {l : List (κ × ν)}, (∀ e ∈ l, k < e.1) → valueAt d k l = d
  | [], _ => rfl
  | e :: l, h => by rw [valueAt, if_neg (not_le.2 (h e List.mem_cons_self))]

theorem valueAt_makeEntry (k x : κ) : ∀ (l : List (κ × ν)) (d : ν), valueAt d x (makeEntry d k l) = valueAt d x l
  | [], d => by simp [makeEntry, valueAt]
  | e :: l, d => by
    unfold makeEntry
    split
    · rfl
    · split
      · rename_i hlt
        rw [valueAt]
        split
        · rfl
        · rename_i hx
          rw [valueAt, if_neg fun he => hx (hlt.le.trans he)]
      · rw [valueAt, valueAt, valueAt_makeEntry k x l e.2]

theorem mem_makeEntry {k : κ} {e : κ × ν} : ∀ {l : List (κ × ν)} {d : ν}, e ∈ makeEntry d k l → e.1 = k ∨ e ∈ l
  | [], d, h => by
    rw [List.mem_singleton.1 h]
    exact .inl rfl
  | a :: l, d, h => by
    unfold makeEntry at h
    split at h
    · exact .inr h
    · split at h
      · rcases List.mem_cons.1 h with rfl | h
        · exact .inl rfl
        · exact .inr h
      · rcases List.mem_cons.1 h with rfl | h
        · exact .inr List.mem_cons_self
        · exact (mem_makeEntry h).imp id (List.mem_cons_of_mem a)

theorem subset_makeEntry {k : κ} : ∀ {l : List (κ × ν)} {d : ν} {e : κ × ν}, e ∈ l → e ∈ makeEntry d k l
  | [], _, _, h => by cases h
  | a :: l, d, e, h => by
    unfold makeEntry
    split
    · exact h
    · split
      · exact List.mem_cons_of_mem _ h
      · rcases List.mem_cons.1 h with rfl | h
        · exact List.mem_cons_self
        · exact List.mem_cons_of_mem _ (subset_makeEntry h)

theorem exists_mem_makeEntry (k : κ) : ∀ (l : List (κ × ν)) (d : ν), ∃ v, (k, v) ∈ makeEntry d k l
  | [], d => ⟨d, List.mem_cons_self⟩
  | a :: l, d => by
    unfold makeEntry
    split
    · rename_i h
      exact ⟨a.2, by rw [h]; exact List.mem_cons_self⟩
    · split
      · exact ⟨d, List.mem_cons_self⟩
      · obtain ⟨v, hv⟩ := exists_mem_makeEntry k l a.2
        exact ⟨v, List.mem_cons_of_mem _ hv⟩

theorem Sorted.makeEntry {k : κ} : ∀ {l : List (κ × ν)} {d : ν}, Sorted l → Sorted (makeEntry d k l)
  | [], d, _ => List.pairwise_singleton _ _
  | a :: l, d, h => by
    obtain ⟨ha, hl⟩ := List.pairwise_cons.1 h
    unfold IntervalEntries.makeEntry
    split
    · exact h
    · rename_i hne
      split
      · rename_i hlt
        refine List.pairwise_cons.2 ⟨fun e he => ?_, h⟩
        rcases List.mem_cons.1 he with rfl | he
        · exact hlt
        · exact hlt.trans (ha e he)
      · rename_i hnlt
        refine List.pairwise_cons.2 ⟨fun e he => ?_, Sorted.makeEntry hl⟩
        rcases mem_makeEntry he with rfl | he
        · exact lt_of_le_of_ne (not_lt.1 hnlt) (Ne.symm hne)
        · exact ha e he

/-- From the entry at `hi` on, what came before does not matter. -/
theorem valueAt_dropWhile {hi x : κ} {v w : ν} : ∀ {l : List (κ × ν)} (d : ν), Sorted l → (hi, w) ∈ l →
    valueAt v x (l.dropWhile (·.1 ≠ hi)) = if x < hi then v else valueAt d x l
  | [], _, _, h => by cases h
  | a :: l, d, hs, h => by
    obtain ⟨ha, hl⟩ := List.pairwise_cons.1 hs
    by_cases hhi : a.1 = hi
    · rw [List.dropWhile_cons_of_neg (by simpa using hhi), valueAt, hhi]
      split
      · rename_i hle
        rw [if_neg (not_lt.2 hle), valueAt, hhi, if_pos hle]
      · rename_i hlt
        rw [if_pos (not_le.1 hlt)]
    · have hmem : (hi, w) ∈ l := (List.mem_cons.1 h).resolve_left fun he => hhi (by rw [← he])
      rw [List.dropWhile_cons_of_pos (by simpa using hhi), valueAt_dropWhile a.2 hl hmem]
      split
      · rfl
      · rename_i hx
        rw [valueAt, if_pos ((ha _ hmem).le.trans (not_lt.1 hx))]

theorem valueAt_overwrite {lo hi x : κ} {u v w : ν} (h : lo < hi) : ∀ {l : List (κ × ν)} (d : ν), Sorted l →
    (lo, u) ∈ l → (hi, w) ∈ l →
      valueAt d x (overwrite lo hi v l) = if lo ≤ x ∧ x < hi then v else valueAt d x l
  | [], _, _, hlo, _ => by cases hlo
  | a :: l, d, hs, hlo, hhi => by
    obtain ⟨ha, hl⟩ := List.pairwise_cons.1 hs
    unfold overwrite
    split
    · rename_i hk
      have hmem : (hi, w) ∈ l := (List.mem_cons.1 hhi).resolve_left fun he => h.ne (hk.symm.trans (by rw [← he]))
      rw [valueAt, valueAt, hk, valueAt_dropWhile a.2 hl hmem]
      by_cases hx : lo ≤ x
      · simp only [hx, true_and, if_true]
      · simp only [hx, false_and, if_false]
    · rename_i hk
      have hlo' : (lo, u) ∈ l := (List.mem_cons.1 hlo).resolve_left fun he => hk (by rw [← he])
      have hlt : a.1 < lo := ha _ hlo'
      have hhi' : (hi, w) ∈ l := (List.mem_cons.1 hhi).resolve_left fun he => (hlt.trans h).ne (by rw [← he])
      rw [valueAt, valueAt, valueAt_overwrite h a.2 hl hlo' hhi']
      split
      · rfl
      · rename_i hx
        rw [if_neg fun hin => hx (hlt.le.trans hin.1)]

theorem mem_overwrite {lo hi : κ} {v : ν} {e : κ × ν} : ∀ {l : List (κ × ν)}, e ∈ overwrite lo hi v l →
    e = (lo, v) ∧ lo ∈ l.map Prod.fst ∨ e ∈ l
  | [], h => by cases h
  | a :: l, h => by
    unfold overwrite at h
    split at h
    · rename_i hk
      rcases List.mem_cons.1 h with rfl | h
      · exact .inl ⟨rfl, by rw [← hk]; exact List.mem_cons_self⟩
      · exact .inr (List.mem_cons_of_mem _ ((List.dropWhile_sublist _).subset h))
    · rcases List.mem_cons.1 h with rfl | h
      · exact .inr List.mem_cons_self
      · exact (mem_overwrite h).imp (And.imp id (List.mem_cons_of_mem _)) (List.mem_cons_of_mem _)

theorem Sorted.overwrite {lo hi : κ} {v : ν} : ∀ {l : List (κ × ν)}, Sorted l → Sorted (overwrite lo hi v l)
  | [], h => h
  | a :: l, h => by
    obtain ⟨ha, hl⟩ := List.pairwise_cons.1 h
    unfold IntervalEntries.overwrite
    split
    · rename_i hk
      refine List.pairwise_cons.2 ⟨fun e he => ?_, hl.sublist (List.dropWhile_sublist _)⟩
      have := ha e ((List.dropWhile_sublist _).subset he)
      rwa [hk] at this
    · refine List.pairwise_cons.2 ⟨fun e he => ?_, Sorted.overwrite hl⟩
      rcases mem_overwrite he with ⟨rfl, hlo⟩ | he
      · obtain ⟨b, hb, rfl⟩ := List.mem_map.1 hlo
        exact ha b hb
      · exact ha e he

section Duplicates

variable [DecidableEq ν]

omit [LinearOrder κ] in
theorem dropSame_sublist (v : ν) : ∀ l : List (κ × ν), (dropSame v l).Sublist l
  | [] => .slnil
  | e :: l => by
    rw [dropSame]
    split
    · exact List.sublist_cons_self e l
    · exact .refl _

theorem removeDuplicates_sublist (k : κ) : ∀ (l : List (κ × ν)) (prev : Option ν),
    (removeDuplicates prev k l).Sublist l
  | [], _ => .slnil
  | e :: l, prev => by
    unfold removeDuplicates
    split
    · split
      · exact (dropSame_sublist _ l).cons _
      · exact (dropSame_sublist _ l).cons_cons _
    · exact (removeDuplicates_sublist k l _).cons_cons _

theorem valueAt_dropSame {v : ν} {x : κ} : ∀ {l : List (κ × ν)}, Sorted l →
    valueAt v x (dropSame v l) = valueAt v x l
  | [], _ => rfl
  | e :: l, h => by
    obtain ⟨he, -⟩ := List.pairwise_cons.1 h
    rw [dropSame]
    by_cases hv : e.2 = v
    · rw [if_pos hv, valueAt, hv]
      split
      · rfl
      · rename_i hx
        exact valueAt_of_lt fun b hb => (not_le.1 hx).trans (he b hb)
    · rw [if_neg hv]

theorem valueAt_removeDuplicates {k x : κ} : ∀ {l : List (κ × ν)} {d : ν} {prev : Option ν}, (∀ p ∈ prev, p = d) →
    Sorted l → valueAt d x (removeDuplicates prev k l) = valueAt d x l
  | [], _, _, _, _ => rfl
  | e :: l, d, prev, hp, h => by
    obtain ⟨he, hl⟩ := List.pairwise_cons.1 h
    unfold removeDuplicates
    split
    · split
      · rename_i hprev
        obtain rfl := hp _ hprev
        rw [valueAt_dropSame hl, valueAt]
        split
        · rfl
        · rename_i hx
          exact valueAt_of_lt fun b hb => (not_le.1 hx).trans (he b hb)
      · rw [valueAt, valueAt, valueAt_dropSame hl]
    · rw [valueAt, valueAt, valueAt_removeDuplicates (fun p hp => (Option.some.inj hp).symm) hl]

end Duplicates

section Least

variable [OrderBot κ]

theorem least_makeEntry {l : List (κ × ν)} (d : ν) (k : κ) (h : l.head?.map Prod.fst = some ⊥) :
    (makeEntry d k l).head?.map Prod.fst = some ⊥ := by
  cases l with
  | nil => cases h
  | cons e l =>
    have he : e.1 = ⊥ := Option.some.inj h
    unfold makeEntry
    rw [he, if_neg (not_lt_bot : ¬ k < ⊥)]
    split <;> exact h

theorem least_overwrite {l : List (κ × ν)} (lo hi : κ) (v : ν) (h : l.head?.map Prod.fst = some ⊥) :
    (overwrite lo hi v l).head?.map Prod.fst = some ⊥ := by
  cases l with
  | nil => cases h
  | cons e l =>
    unfold overwrite
    split
    · rename_i hk
      rw [← hk]
      exact h
    · exact h

theorem least_removeDuplicates [DecidableEq ν] {l : List (κ × ν)} (k : κ) (h : l.head?.map Prod.fst = some ⊥) :
    (removeDuplicates none k l).head?.map Prod.fst = some ⊥ := by
  cases l with
  | nil => cases h
  | cons e l =>
    unfold removeDuplicates
    rw [if_neg (show ¬ none = some e.2 from nofun)]
    split <;> exact h

end Least

end Entries

end IntervalEntries

/-- The entries of the map. -/
structure IntervalMap (κ ν : Type) [LinearOrder κ] [OrderBot κ] where
  entries : List (κ × ν)
  sorted : IntervalEntries.Sorted entries
  least : entries.head?.map Prod.fst = some ⊥

namespace IntervalMap

open IntervalEntries

variable {κ ν : Type} [LinearOrder κ] [OrderBot κ] [Inhabited ν]

/-- `IntervalMap()`. -/
def empty : IntervalMap κ ν where
  entries := [(⊥, default)]
  sorted := List.pairwise_singleton _ _
  least := rfl

/-- `find(k).value()`. -/
def find (m : IntervalMap κ ν) (k : κ) : ν := valueAt default k m.entries

@[simp] theorem find_empty (k : κ) : (empty : IntervalMap κ ν).find k = default := by
  unfold find empty
  rw [valueAt]
  split <;> rfl

variable [DecidableEq ν]

/-- `SetInterval`: the keys from `lo` up to `hi` get the value `v`. -/
def setInterval (m : IntervalMap κ ν) (lo hi : κ) (v : ν) : IntervalMap κ ν :=
  if hi ≤ lo then m
  else
    { entries := removeDuplicates none hi (removeDuplicates none lo
        (overwrite lo hi v (makeEntry default hi (makeEntry default lo m.entries))))
      sorted := ((m.sorted.makeEntry.makeEntry.overwrite).sublist (removeDuplicates_sublist _ _ _)).sublist
        (removeDuplicates_sublist _ _ _)
      least := least_removeDuplicates _ (least_removeDuplicates _ (least_overwrite _ _ _
        (least_makeEntry _ _ (least_makeEntry _ _ m.least)))) }

/-- **`SetInterval` overwrites exactly the half-open interval.** -/
theorem find_setInterval (m : IntervalMap κ ν) (lo hi x : κ) (v : ν) :
    (m.setInterval lo hi v).find x = if lo ≤ x ∧ x < hi then v else m.find x := by
  unfold setInterval
  split
  · rename_i h
    rw [if_neg fun hin => absurd hin.2 (not_lt.2 (h.trans hin.1))]
  · rename_i h
    obtain ⟨u, hu⟩ := exists_mem_makeEntry lo m.entries default
    obtain ⟨w, hw⟩ := exists_mem_makeEntry hi (makeEntry default lo m.entries) default
    have hsorted : Sorted (overwrite lo hi v (makeEntry default hi (makeEntry default lo m.entries))) :=
      m.sorted.makeEntry.makeEntry.overwrite
    unfold find
    rw [valueAt_removeDuplicates (by simp) (hsorted.sublist (removeDuplicates_sublist _ _ _)),
      valueAt_removeDuplicates (by simp) hsorted,
      valueAt_overwrite (not_le.1 h) default m.sorted.makeEntry.makeEntry (subset_makeEntry hu) hw,
      valueAt_makeEntry, valueAt_makeEntry]

end IntervalMap
