import Mathlib.Data.BitVec
import Mathlib.Data.List.Basic
import Mathlib.Data.Nat.Bitwise
/-!
# Patterns — bit patterns and the trees that tell them apart

A pattern fixes some bits of a word and leaves the others open.  A tree looks up one field of the word after another; it
decides a list of patterns when each of them fixes every field it is asked for.  Patterns that some tree decides can be
separated bit by bit, whatever bit is taken first.
-/
namespace Patterns

/-- The value each bit must have, if it is fixed. -/
abbrev Pattern := Nat → Option Bool

abbrev Word := Nat → Bool

def Matches (p : Pattern) (w : Word) : Prop := ∀ i b, p i = some b → w i = b

/-- Two patterns that fix a bit differently. -/
def Apart (p q : Pattern) : Prop := ∃ i b, p i = some b ∧ q i = some (!b)

/-- **Patterns are apart if and only if no word matches both.** -/
theorem apart_iff (p q : Pattern) : Apart p q ↔ ∀ w, Matches p w → ¬Matches q w := by
  constructor
  · rintro ⟨i, b, hp, hq⟩ w hw hw'
    have h := hw' i _ hq
    rw [hw i b hp] at h
    cases b <;> simp at h
  · intro h
    by_contra hno
    refine h (fun i => (p i).getD ((q i).getD false)) (fun i b hp => by simp [hp]) fun i b hq => ?_
    cases hp : p i with
    | none => simp [hp, hq]
    | some c =>
      have hbc : c ≠ !b := fun hc => hno ⟨i, c, hp, by rw [hq, hc, Bool.not_not]⟩
      cases b <;> cases c <;> simp_all

/-- The number that `n` bits spell, the lowest first. -/
def field (w : Word) : Nat → Nat → Nat
  | _, 0 => 0
  | l, n + 1 => (w l).toNat + 2 * field w (l + 1) n

theorem field_lt (w : Word) : ∀ l n, field w l n < 2 ^ n
  | _, 0 => Nat.one_pos
  | l, n + 1 => by
    have ih := field_lt w (l + 1) n
    have hb := Bool.toNat_le (w l)
    rw [field, Nat.pow_succ]
    omega

theorem field_congr {w w' : Word} : ∀ {l n : Nat}, (∀ k < n, w (l + k) = w' (l + k)) → field w l n = field w' l n
  | _, 0, _ => rfl
  | l, n + 1, h => by
    have h0 : w l = w' l := h 0 (Nat.succ_pos n)
    have htail : field w (l + 1) n = field w' (l + 1) n := field_congr fun k hk => by
      have hk' := h (k + 1) (by omega)
      rwa [← Nat.add_assoc, Nat.add_right_comm] at hk'
    rw [field, field, h0, htail]

theorem testBit_field (w : Word) : ∀ l n k, k < n → (field w l n).testBit k = w (l + k)
  | _, 0, _, h => absurd h (Nat.not_lt_zero _)
  | l, n + 1, 0, _ => by
    rw [field, Nat.testBit_zero, Nat.add_zero]
    cases w l <;> simp [Nat.add_mod]
  | l, n + 1, k + 1, h => by
    have hdiv : ((w l).toNat + 2 * field w (l + 1) n) / 2 = field w (l + 1) n := by
      have hb := Bool.toNat_le (w l)
      omega
    rw [field, Nat.testBit_succ, hdiv, testBit_field w (l + 1) n k (by omega), Nat.add_right_comm, Nat.add_assoc]

/-- The pattern fixes `n` bits from `l` on, to those of `v`. -/
def Spells (p : Pattern) (l n v : Nat) : Prop := ∀ k < n, p (l + k) = some (v.testBit k)

instance (p : Pattern) (l n v : Nat) : Decidable (Spells p l n v) := inferInstanceAs (Decidable (∀ k < n, _))

theorem Matches.spells {p : Pattern} {w : Word} (h : Matches p w) {l n : Nat} (hfix : ∀ k < n, p (l + k) ≠ none) :
    Spells p l n (field w l n) := fun k hk => by
  obtain ⟨b, hb⟩ := Option.ne_none_iff_exists'.1 (hfix k hk)
  rw [testBit_field w l n k hk, hb, h _ _ hb]

inductive DecTree (τ : Type) where
  | invalid
  | terminal (t : τ)
  | table (l n : Nat) (entry : Fin (2 ^ n) → DecTree τ)

namespace DecTree

variable {τ : Type}

def walk : DecTree τ → Word → Option τ
  | invalid, _ => none
  | terminal t, _ => some t
  | table l n entry, w => (entry ⟨field w l n, field_lt w l n⟩).walk w

/-- Where the words of a pattern walk to, if it fixes every field they are asked for. -/
def follow (p : Pattern) : DecTree τ → Option τ
  | invalid => none
  | terminal t => some t
  | table l n entry =>
    let v := field (fun i => (p i).getD false) l n
    if Spells p l n v then (entry ⟨v, field_lt _ l n⟩).follow p else none

theorem walk_of_follow {p : Pattern} {w : Word} {t : τ} (hw : Matches p w) : ∀ {T : DecTree τ}, T.follow p = some t →
    T.walk w = some t
  | invalid, h => by cases h
  | terminal u, h => h
  | table l n entry, h => by
    simp only [follow, Option.ite_none_right_eq_some] at h
    obtain ⟨hfix, h⟩ := h
    have hfield : field (fun i => (p i).getD false) l n = field w l n := field_congr fun k hk => by
      rw [hfix k hk, hw _ _ (hfix k hk), Option.getD_some]
    rw [walk, walk_of_follow hw (by simpa only [hfield] using h)]

end DecTree

variable {τ : Type} (pat : τ → Pattern)

/-- Every field the tree asks for is fixed in the patterns that are left. -/
inductive DecTree.Decides : DecTree τ → List τ → Prop
  | invalid : Decides .invalid []
  | terminal (t : τ) : Decides (.terminal t) [t]
  | table {l n : Nat} {entry : Fin (2 ^ n) → DecTree τ} {ts : List τ} (fixed : ∀ t ∈ ts, ∀ k < n, pat t (l + k) ≠ none)
      (h : ∀ v, (entry v).Decides (ts.filter fun t => Spells (pat t) l n v)) : Decides (.table l n entry) ts

/-- The patterns can be told apart a bit at a time, each bit fixed in all that are left. -/
inductive Separable : List τ → Prop
  | few {ts : List τ} (h : ts.length ≤ 1) : Separable ts
  | split {ts : List τ} (i : Nat) (fixed : ∀ t ∈ ts, pat t i ≠ none) (low :
      Separable (ts.filter fun t => pat t i = some false))
      (high : Separable (ts.filter fun t => pat t i = some true)) : Separable ts

variable {pat} {ts us : List τ} {T : DecTree τ}

namespace DecTree.Decides

theorem complete (h : T.Decides pat ts) {t : τ} (ht : t ∈ ts) {w : Word} (hw : Matches (pat t) w) :
    T.walk w = some t := by
  induction h with
  | invalid => cases ht
  | terminal u => rw [List.mem_singleton.1 ht, walk]
  | table fixed _ ih => exact ih _ (List.mem_filter.2 ⟨ht, decide_eq_true (hw.spells (fixed t ht))⟩)

theorem mem (h : T.Decides pat ts) {w : Word} {t : τ} (ht : T.walk w = some t) : t ∈ ts := by
  induction h with
  | invalid => cases ht
  | terminal u => exact List.mem_singleton.2 (Option.some.inj ht).symm
  | table _ _ ih => exact (List.mem_filter.1 (ih _ ht)).1

/-- **What is found is what matches, once it is checked to match.** -/
theorem walk_iff (h : T.Decides pat ts) {w : Word} {t : τ} :
    T.walk w = some t ∧ Matches (pat t) w ↔ t ∈ ts ∧ Matches (pat t) w :=
  ⟨fun hw => ⟨h.mem hw.1, hw.2⟩, fun hw => ⟨h.complete hw.1 hw.2, hw.2⟩⟩

/-- **No word matches two of them.** -/
theorem apart (h : T.Decides pat ts) {t u : τ} (ht : t ∈ ts) (hu : u ∈ ts) (hne : t ≠ u) : Apart (pat t) (pat u) :=
  (apart_iff _ _).2 fun _ hwt hwu => hne (Option.some.inj ((h.complete ht hwt).symm.trans (h.complete hu hwu)))

end DecTree.Decides

namespace Separable

theorem sublist (h : Separable pat ts) (hs : us.Sublist ts) : Separable pat us := by
  induction h generalizing us with
  | few h => exact .few (hs.length_le.trans h)
  | split i fixed _ _ ihl ihh =>
    exact .split i (fun t ht => fixed t (hs.subset ht)) (ihl (hs.filter _)) (ihh (hs.filter _))

/-- Two or more patterns have a bit that all of them fix, and not all to the same value. -/
theorem exists_bit (h : Separable pat ts) (h2 : 2 ≤ ts.length) : ∃ i, (∀ t ∈ ts, pat t i ≠ none) ∧
    (∃ t ∈ ts, pat t i = some false) ∧ ∃ t ∈ ts, pat t i = some true := by
  induction h with
  | few h => omega
  | @split ts i fixed _ _ ihl ihh =>
    have hval {t : τ} (ht : t ∈ ts) : pat t i = some false ∨ pat t i = some true := by
      obtain ⟨b, hb⟩ := Option.ne_none_iff_exists'.1 (fixed t ht)
      cases b
      · exact .inl hb
      · exact .inr hb
    by_cases hlow : ∃ t ∈ ts, pat t i = some false
    · by_cases hhigh : ∃ t ∈ ts, pat t i = some true
      · exact ⟨i, fixed, hlow, hhigh⟩
      · have hall : ts.filter (fun t => pat t i = some false) = ts :=
          List.filter_eq_self.2 fun t ht => decide_eq_true ((hval ht).resolve_right fun h => hhigh ⟨t, ht, h⟩)
        rw [hall] at ihl
        exact ihl h2
    · have hall : ts.filter (fun t => pat t i = some true) = ts :=
        List.filter_eq_self.2 fun t ht => decide_eq_true ((hval ht).resolve_left fun h => hlow ⟨t, ht, h⟩)
      rw [hall] at ihh
      exact ihh h2

theorem spells_succ {p : Pattern} {l n v : Nat} {b : Bool} :
    Spells p l (n + 1) (b.toNat + 2 * v) ↔ p l = some b ∧ Spells p (l + 1) n v := by
  have hlow : (b.toNat + 2 * v).testBit 0 = b := by
    rw [Nat.testBit_zero]
    cases b <;> simp [Nat.add_mod]
  have hhigh (k : Nat) : (b.toNat + 2 * v).testBit (k + 1) = v.testBit k := by
    have hb := Bool.toNat_le b
    rw [Nat.testBit_succ, show (b.toNat + 2 * v) / 2 = v by omega]
  constructor
  · intro h
    refine ⟨by simpa [hlow] using h 0 (Nat.succ_pos n), fun k hk => ?_⟩
    rw [← hhigh k, ← h (k + 1) (by omega), Nat.add_right_comm, Nat.add_assoc]
  · rintro ⟨h0, h⟩ k hk
    cases k with
    | zero => rw [hlow, Nat.add_zero, h0]
    | succ k => rw [hhigh, ← h k (by omega), Nat.add_right_comm, Nat.add_assoc]

/-- Patterns that are separable where they agree on a field they all fix are separable. -/
theorem of_field : ∀ {n l : Nat} {ts : List τ}, (∀ t ∈ ts, ∀ k < n, pat t (l + k) ≠ none) →
    (∀ v < 2 ^ n, Separable pat (ts.filter fun t => Spells (pat t) l n v)) → Separable pat ts
  | 0, l, ts, _, h => by
    have hall : (ts.filter fun t => Spells (pat t) l 0 0) = ts :=
      List.filter_eq_self.2 fun t _ => decide_eq_true fun k hk => absurd hk (Nat.not_lt_zero k)
    exact hall ▸ h 0 Nat.one_pos
  | n + 1, l, ts, fixed, h => by
    have half (b : Bool) : Separable pat (ts.filter fun t => pat t l = some b) := by
      refine of_field (n := n) (l := l + 1) (fun t ht k hk => ?_) fun v hv => ?_
      · have := fixed t (List.mem_filter.1 ht).1 (k + 1) (by omega)
        rwa [← Nat.add_assoc, Nat.add_right_comm] at this
      · have hb := Bool.toNat_le b
        have hs := h (b.toNat + 2 * v) (by rw [Nat.pow_succ]; omega)
        rw [List.filter_filter]
        refine (congrArg (Separable pat) (List.filter_congr fun t _ => ?_)).mp hs
        rw [decide_eq_decide.2 spells_succ, Bool.decide_and, Bool.and_comm]
    exact .split l (fun t ht => by simpa using fixed t ht 0 (Nat.succ_pos n)) (half false) (half true)

theorem of_decides (h : T.Decides pat ts) : Separable pat ts := by
  induction h with
  | invalid => exact .few (Nat.zero_le 1)
  | terminal t => exact .few (Nat.le_refl 1)
  | table fixed _ ih => exact of_field fixed fun v hv => ih ⟨v, hv⟩

end Separable

/-- The number bits spell, the lowest first. -/
def bitsToNat : List Bool → Nat
  | [] => 0
  | b :: l => b.toNat + 2 * bitsToNat l

theorem bitsToNat_lt : ∀ l : List Bool, bitsToNat l < 2 ^ l.length
  | [] => Nat.one_pos
  | b :: l => by
    have ih := bitsToNat_lt l
    have hb := Bool.toNat_le b
    rw [bitsToNat, List.length_cons, Nat.pow_succ]
    omega

theorem testBit_bitsToNat : ∀ (l : List Bool) (i : Nat), (bitsToNat l).testBit i = l.getD i false
  | [], i => by simp [bitsToNat]
  | b :: l, 0 => by
    rw [bitsToNat, Nat.testBit_zero]
    cases b <;> simp [Nat.add_mod]
  | b :: l, i + 1 => by
    have hb := Bool.toNat_le b
    rw [bitsToNat, Nat.testBit_succ, show (b.toNat + 2 * bitsToNat l) / 2 = bitsToNat l by omega, testBit_bitsToNat l i,
      List.getD_cons_succ]

theorem bitsToNat_testBit (v n : Nat) : bitsToNat ((List.range n).map v.testBit) = v % 2 ^ n := by
  refine Nat.eq_of_testBit_eq fun i => ?_
  rw [testBit_bitsToNat, Nat.testBit_mod_two_pow, List.getD_eq_getElem?_getD, List.getElem?_map]
  by_cases hi : i < n <;> simp [hi]

/-- The word that bits spell. -/
def ofBits (n : Nat) (l : List Bool) : BitVec n := BitVec.ofNat n (bitsToNat l)

@[simp] theorem getLsbD_ofBits (n : Nat) (l : List Bool) (i : Nat) :
    (ofBits n l).getLsbD i = (decide (i < n) && l.getD i false) := by
  rw [ofBits, BitVec.getLsbD_ofNat, testBit_bitsToNat]

theorem toNat_ofBits {n : Nat} {l : List Bool} (h : l.length ≤ n) : (ofBits n l).toNat = bitsToNat l := by
  rw [ofBits, BitVec.toNat_ofNat]
  exact Nat.mod_eq_of_lt ((bitsToNat_lt l).trans_le (Nat.pow_le_pow_right (by decide) h))

theorem ofBits_append (n : Nat) (l m : List Bool) : ofBits n (l ++ m) = ofBits n l ||| (ofBits n m <<< l.length) := by
  refine BitVec.eq_of_getLsbD_eq fun i hi => ?_
  simp only [BitVec.getLsbD_or, BitVec.getLsbD_shiftLeft, getLsbD_ofBits, hi, decide_true, Bool.true_and,
    List.getD_eq_getElem?_getD, List.getElem?_append]
  by_cases h : i < l.length
  · simp [h]
  · have hsub : i - l.length < n := by omega
    simp [h, hsub]

theorem shift_and_mask {n : Nat} (w : BitVec n) {start len : Nat} (hn : 0 < n) :
    (w >>> start) &&& ((1#n <<< len) - 1) = ofBits n ((List.range len).map fun k => w.getLsbD (start + k)) := by
  have hshift : 1#n <<< len = BitVec.ofNat n (2 ^ len) := by
    refine BitVec.eq_of_toNat_eq ?_
    rw [BitVec.toNat_shiftLeft, BitVec.toNat_ofNat, BitVec.toNat_ofNat, Nat.shiftLeft_eq, Nat.mod_mul_mod, Nat.one_mul]
  have hones : ((1#n <<< len) - 1) = BitVec.ofNat n (2 ^ len - 1) := by
    rw [hshift]
    exact BitVec.ofNat_sub_ofNat_of_le _ 1 (Nat.one_lt_two_pow hn.ne') Nat.one_le_two_pow
  refine BitVec.eq_of_getLsbD_eq fun i hi => ?_
  rw [hones, BitVec.getLsbD_and, BitVec.getLsbD_ushiftRight, BitVec.getLsbD_ofNat, Nat.testBit_two_pow_sub_one,
    getLsbD_ofBits, List.getD_eq_getElem?_getD, List.getElem?_map]
  by_cases hl : i < len <;> simp [hl, hi]

end Patterns
