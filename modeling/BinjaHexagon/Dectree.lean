import BinjaHexagon.Patterns
import Mathlib.Data.List.Dedup
/-!
# Dectree — `auto_separate`

How `dectree.py` builds the tables the decoder walks.  An encoding is written from its lowest bit on, as `encs` holds it
reversed; a node takes the widest field that tells its tags apart, the highest one of that width, and where it tells all
of them apart the narrowest that does.
-/
namespace Hex

open Patterns (Pattern Matches Separable DecTree Word)

/-- An encoding, the lowest bit first. -/
abbrev Enc := List Char

/-- `''.join(reversed(enc.replace(' ', '')))` -/
def encOf (enc : String) : Enc := (enc.toList.filter (· != ' ')).reverse

/-- `encs[tag] + '0' * (32 - len(encs[tag]))` -/
def Enc.padded (e : Enc) : Enc := e ++ List.replicate (32 - e.length) '0'

/-- `in '01'`. -/
def isOpcodeBit (x : Char) : Bool := x == '0' || x == '1'

/-- The bits an encoding fixes. -/
def Enc.pattern (e : Enc) : Pattern := fun i => e[i]?.bind fun x => if isOpcodeBit x then some (x == '1') else none

namespace Dectree

variable {τ : Type} (encs : τ → Enc)

/-- `differentiator_opcode_bit[i]` -/
def differentiatorOpcodeBit (tags : List τ) (i : Nat) : Bool :=
  tags.all (fun t => (encs t)[i]?.any isOpcodeBit) &&
    !(tags.all (fun t => (encs t)[i]? == some '0') || tags.all (fun t => (encs t)[i]? == some '1'))

/-- `encs[tag][lsb:lsb + width]` -/
def slice (lsb width : Nat) (t : τ) : List Char := ((encs t).drop lsb).take width

/-- `set([encs[tag][lsb:lsb + width] for tag in tags])` -/
def bitset (tags : List τ) (lsb width : Nat) : List (List Char) := (tags.map (slice encs lsb width)).dedup

/-- `every_bit_counts`; bit 0 is not asked. -/
def everyBitCounts (bitset : List (List Char)) : Bool :=
  (List.range' 1 ((bitset.headD []).length - 1)).all fun i => (bitset.map (·.eraseIdx i)).dedup.length != bitset.length

/-- `all(differentiator_opcode_bit[lsb:lsb+width])` -/
def allDifferentiate (tags : List τ) (lsb width : Nat) : Bool :=
  (List.range width).all fun k => differentiatorOpcodeBit encs tags (lsb + k)

/-- `len(bitset) == len(tags)` -/
def catchesAll (tags : List τ) (lsb width : Nat) : Bool := (bitset encs tags lsb width).length == tags.length

/-- The first field that passes, the widths in the order given, the highest place first. -/
def firstField (encWidth : Nat) (p : Nat → Nat → Bool) (widths : List Nat) : Option (Nat × Nat) :=
  widths.findSome? fun width => ((List.range (encWidth + 1 - width)).reverse.find? (p · width)).map (·, width)

/-- What the first search asks of a field, and what the second one does. -/
def passes (tags : List τ) (lsb width : Nat) : Bool := allDifferentiate encs tags lsb width &&
  (catchesAll encs tags lsb width || everyBitCounts (bitset encs tags lsb width))
def passesAll (tags : List τ) (lsb width : Nat) : Bool :=
    allDifferentiate encs tags lsb width && catchesAll encs tags lsb width

/-- The field a node is separated by: `best_lsb` and `best_width`. -/
def separator (encWidth : Nat) (tags : List τ) : Option (Nat × Nat) := do
  let best ← firstField encWidth (passes encs tags) [4, 3, 2, 1]
  if catchesAll encs tags best.1 best.2 then
    some ((firstField encWidth (passesAll encs tags) (List.range' 1 (best.2 - 1))).getD best)
  else some best

/-- `reversed('{:0{}b}'.format(value, width))` -/
def bits (width value : Nat) : List Char := (List.range width).map fun k => if value.testBit k then '1' else '0'

/-- `set([tag for tag in tags if encs[tag][lsb:lsb + width] == bits])` -/
def childTags (tags : List τ) (lsb width value : Nat) : List τ :=
  tags.filter fun t => slice encs lsb width t == bits width value

/-- A node with its children, unless one of them raises. -/
def node (lsb width : Nat) (child : Nat → Option (DecTree τ)) : Option (DecTree τ) :=
  if h : ∀ value : Fin (2 ^ width), (child value).isSome then
    some (.table lsb width fun value => (child value).get (h value))
  else none

/-- `auto_separate`, with fuel; `none` is the exception. -/
def autoSeparate (encWidth : Nat) : Nat → List τ → Option (DecTree τ)
  | _, [] => some .invalid
  | _, [t] => some (.terminal t)
  | 0, _ :: _ :: _ => none
  | fuel + 1, t :: u :: tags =>
    (separator encs encWidth (t :: u :: tags)).bind fun f =>
      node f.1 f.2 fun value => autoSeparate encWidth fuel (childTags encs (t :: u :: tags) f.1 f.2 value)

/-- `auto_separate(dectree)` -/
def separate (encWidth : Nat) (tags : List τ) : Option (DecTree τ) := autoSeparate encs encWidth tags.length tags

section Patterns

theorem pattern_eq_some {e : Enc} {i : Nat} {b : Bool} :
    e.pattern i = some b ↔ e[i]? = some (if b then '1' else '0') := by
  rw [Enc.pattern]
  cases he : e[i]? with
  | none => simp
  | some x =>
    have h0 : x = '0' ∨ x = '1' ↔ isOpcodeBit x = true := by simp [isOpcodeBit]
    by_cases hx : isOpcodeBit x = true
    · rcases h0.2 hx with rfl | rfl <;> cases b <;> decide
    · have hne : x ≠ '0' ∧ x ≠ '1' := ⟨fun h => hx (h0.1 (.inl h)), fun h => hx (h0.1 (.inr h))⟩
      cases b <;> simp [hx, hne]

theorem pattern_ne_none {e : Enc} {i : Nat} : e.pattern i ≠ none ↔ e[i]?.any isOpcodeBit = true := by
  rw [Enc.pattern]
  cases e[i]? with
  | none => simp
  | some x => by_cases hx : isOpcodeBit x = true <;> simp [hx]

variable {encs} {tags : List τ}

theorem differentiatorOpcodeBit_iff {i : Nat} : differentiatorOpcodeBit encs tags i = true ↔
    (∀ t ∈ tags, (encs t).pattern i ≠ none) ∧
      ((∃ t ∈ tags, (encs t).pattern i = some false) ∧ ∃ t ∈ tags, (encs t).pattern i = some true) := by
  simp only [differentiatorOpcodeBit, Bool.and_eq_true, List.all_eq_true, ← pattern_ne_none, Bool.not_eq_true',
    Bool.or_eq_false_iff, List.all_eq_false, beq_iff_eq]
  refine and_congr_right fun hall => ?_
  have hval {t : τ} (ht : t ∈ tags) (b : Bool) : (encs t).pattern i = some b ↔
      ¬(encs t)[i]? = some (if b then '0' else '1') := by
    obtain ⟨a, ha⟩ := Option.ne_none_iff_exists'.1 (hall t ht)
    rw [ha, pattern_eq_some.1 ha]
    cases a <;> cases b <;> decide
  rw [and_comm]
  refine and_congr ?_ ?_
  · exact ⟨fun ⟨t, ht, h⟩ => ⟨t, ht, (hval ht false).2 h⟩, fun ⟨t, ht, h⟩ => ⟨t, ht, (hval ht false).1 h⟩⟩
  · exact ⟨fun ⟨t, ht, h⟩ => ⟨t, ht, (hval ht true).2 h⟩, fun ⟨t, ht, h⟩ => ⟨t, ht, (hval ht true).1 h⟩⟩

theorem allDifferentiate_iff {lsb width : Nat} : allDifferentiate encs tags lsb width = true ↔
    ∀ k < width, differentiatorOpcodeBit encs tags (lsb + k) = true := by
  simp [allDifferentiate]

/-- A child takes the tags whose encodings spell its number. -/
theorem slice_eq_bits {lsb width value : Nat} {t : τ} :
    (slice encs lsb width t == bits width value) = decide (Patterns.Spells (encs t).pattern lsb width value) := by
  rw [beq_eq_decide]
  refine decide_eq_decide.2 ⟨fun h k hk => ?_, fun h => List.ext_getElem? fun k => ?_⟩
  · have hk' := congrArg (·[k]?) h
    simp only [slice, bits, List.getElem?_take, hk, if_true, List.getElem?_drop, List.getElem?_map,
      List.getElem?_range hk, Option.map_some] at hk'
    exact pattern_eq_some.2 hk'
  · rw [slice, bits, List.getElem?_take, List.getElem?_map]
    by_cases hk : k < width
    · rw [if_pos hk, List.getElem?_drop, List.getElem?_range hk, pattern_eq_some.1 (h k hk)]
      rfl
    · rw [if_neg hk, List.getElem?_eq_none (by simpa using hk)]
      rfl

theorem childTags_eq {lsb width value : Nat} : childTags encs tags lsb width value =
    tags.filter fun t => decide (Patterns.Spells (encs t).pattern lsb width value) :=
  List.filter_congr fun _ _ => slice_eq_bits

end Patterns

section Search

variable {encs} {tags : List τ} {encWidth : Nat}

theorem firstField_some {p : Nat → Nat → Bool} {widths : List Nat} {f : Nat × Nat}
    (h : firstField encWidth p widths = some f) : f.2 ∈ widths ∧ p f.1 f.2 = true := by
  obtain ⟨width, hmem, hf⟩ := List.exists_of_findSome?_eq_some h
  obtain ⟨lsb, hlsb, rfl⟩ := Option.map_eq_some_iff.1 hf
  exact ⟨hmem, List.find?_some (p := (p · width)) hlsb⟩

theorem firstField_isSome {p : Nat → Nat → Bool} {widths : List Nat} {lsb width : Nat} (hw : width ∈ widths)
    (hl : lsb + width ≤ encWidth) (hp : p lsb width = true) : (firstField encWidth p widths).isSome = true := by
  refine List.findSome?_isSome_iff.2 ⟨width, hw, ?_⟩
  rw [Option.isSome_map, List.find?_isSome]
  exact ⟨lsb, List.mem_reverse.2 (List.mem_range.2 (by omega)), hp⟩

/-- **The field of a node is one to four bits wide, and every bit of it tells tags apart.** -/
theorem separator_some {f : Nat × Nat} (h : separator encs encWidth tags = some f) :
    1 ≤ f.2 ∧ ∀ k < f.2, differentiatorOpcodeBit encs tags (f.1 + k) = true := by
  simp only [separator, Option.bind_eq_bind, Option.bind_eq_some_iff] at h
  obtain ⟨best, hbest, h⟩ := h
  obtain ⟨hwidth, hp⟩ := firstField_some hbest
  simp only [passes, Bool.and_eq_true] at hp
  have hfits : 1 ≤ best.2 ∧ ∀ k < best.2, differentiatorOpcodeBit encs tags (best.1 + k) = true := by
    refine ⟨?_, allDifferentiate_iff.1 hp.1⟩
    simp only [List.mem_cons, List.not_mem_nil, or_false] at hwidth
    omega
  split at h
  · obtain rfl := Option.some.inj h
    cases hn : firstField encWidth (passesAll encs tags) (List.range' 1 (best.2 - 1)) with
    | none => exact hfits
    | some g =>
      obtain ⟨hg, hgp⟩ := firstField_some hn
      simp only [passesAll, Bool.and_eq_true] at hgp
      exact ⟨(List.mem_range'_1.1 hg).1, allDifferentiate_iff.1 hgp.1⟩
  · obtain rfl := Option.some.inj h
    exact hfits

theorem separator_isSome {i : Nat} (hi : i < encWidth) (h : differentiatorOpcodeBit encs tags i = true)
    (hlen : ∀ t ∈ tags, (encs t).length = encWidth) : (separator encs encWidth tags).isSome = true := by
  have hone : ∀ b ∈ bitset encs tags i 1, b.length = 1 := fun b hb => by
    obtain ⟨t, ht, rfl⟩ := List.mem_map.1 (List.mem_dedup.1 hb)
    rw [slice, List.length_take, List.length_drop, hlen t ht]
    omega
  have hevery : everyBitCounts (bitset encs tags i 1) = true := by
    have hhead : ((bitset encs tags i 1).headD []).length ≤ 1 := by
      cases hb : bitset encs tags i 1 with
      | nil => simp
      | cons b l => exact (hone b (hb ▸ List.mem_cons_self)).le
    rw [everyBitCounts, Nat.sub_eq_zero_of_le hhead]
    rfl
  have hall : allDifferentiate encs tags i 1 = true := allDifferentiate_iff.2 fun k hk => by
    obtain rfl : k = 0 := by omega
    exact h
  have hpasses : passes encs tags i 1 = true := by
    rw [passes, hall, hevery, Bool.or_true]
    rfl
  obtain ⟨best, hbest⟩ := Option.isSome_iff_exists.1
    (firstField_isSome (show 1 ∈ [4, 3, 2, 1] by decide) (show i + 1 ≤ encWidth from hi) hpasses)
  rw [separator, hbest]
  simp only [Option.bind_eq_bind, Option.bind_some]
  split <;> rfl

end Search

section Separate

variable {encs} {encWidth : Nat}

theorem length_child_lt {tags : List τ} {lsb width value : Nat} (hw : 1 ≤ width)
    (h : ∀ k < width, differentiatorOpcodeBit encs tags (lsb + k) = true) :
    (childTags encs tags lsb width value).length < tags.length := by
  rw [childTags_eq, List.length_filter_lt_length_iff_exists]
  obtain ⟨-, ⟨t, ht, htb⟩, u, hu, hub⟩ := differentiatorOpcodeBit_iff.1 (h 0 hw)
  cases hb : value.testBit 0 with
  | false =>
    refine ⟨u, hu, fun hs => ?_⟩
    have := of_decide_eq_true hs 0 hw
    rw [hub, hb] at this
    cases this
  | true =>
    refine ⟨t, ht, fun hs => ?_⟩
    have := of_decide_eq_true hs 0 hw
    rw [htb, hb] at this
    cases this

theorem node_some {lsb width : Nat} {child : Nat → Option (DecTree τ)} {T : DecTree τ}
    (h : node lsb width child = some T) :
    ∃ entry : Fin (2 ^ width) → DecTree τ, T = .table lsb width entry ∧ ∀ value : Fin (2 ^ width),
        child value = some (entry value) := by
  unfold node at h
  split at h
  · rename_i hc
    exact ⟨_, (Option.some.inj h).symm, fun value => (Option.some_get (hc value)).symm⟩
  · cases h

/-- **The tree decides its tags.** -/
theorem decides_of_autoSeparate : ∀ {fuel : Nat} {tags : List τ} {T : DecTree τ},
    autoSeparate encs encWidth fuel tags = some T → T.Decides (fun t => (encs t).pattern) tags
  | _, [], T, h => by
    rw [autoSeparate] at h
    obtain rfl := Option.some.inj h
    exact .invalid
  | _, [t], T, h => by
    rw [autoSeparate] at h
    obtain rfl := Option.some.inj h
    exact .terminal t
  | 0, _ :: _ :: _, T, h => by cases h
  | fuel + 1, t :: u :: tags, T, h => by
    obtain ⟨⟨lsb, width⟩, hsep, hnode⟩ := Option.bind_eq_some_iff.1 h
    obtain ⟨entry, rfl, hentry⟩ := node_some hnode
    obtain ⟨-, hbits⟩ := separator_some hsep
    refine .table (fun x hx k hk => (differentiatorOpcodeBit_iff.1 (hbits k hk)).1 x hx) fun value => ?_
    rw [← childTags_eq]
    exact decides_of_autoSeparate (hentry value)

/-- Tags that can be separated are separated, with fuel for each of them. -/
theorem autoSeparate_isSome : ∀ {fuel : Nat} {tags : List τ}, Separable (fun t => (encs t).pattern) tags →
    (∀ t ∈ tags, (encs t).length = encWidth) → tags.length ≤ fuel + 1 →
      (autoSeparate encs encWidth fuel tags).isSome = true
  | _, [], _, _, _ => by rw [autoSeparate]; rfl
  | _, [t], _, _, _ => by rw [autoSeparate]; rfl
  | 0, _ :: _ :: _, _, _, h => by simp at h
  | fuel + 1, t :: u :: tags, hs, hlen, hfuel => by
    obtain ⟨i, hi⟩ := hs.exists_bit (Nat.le_add_left 2 tags.length)
    have hlt : i < encWidth := by
      by_contra hge
      refine hi.1 t List.mem_cons_self ?_
      rw [Enc.pattern, List.getElem?_eq_none (by rw [hlen t List.mem_cons_self]; omega)]
      rfl
    obtain ⟨⟨lsb, width⟩, hsep⟩ := Option.isSome_iff_exists.1
      (separator_isSome hlt (differentiatorOpcodeBit_iff.2 hi) hlen)
    obtain ⟨hw, hbits⟩ := separator_some hsep
    have hchild (value : Fin (2 ^ width)) :
        (autoSeparate encs encWidth fuel (childTags encs (t :: u :: tags) lsb width value)).isSome = true := by
      have hlt : (childTags encs (t :: u :: tags) lsb width value).length < (t :: u :: tags).length :=
        length_child_lt hw hbits
      exact autoSeparate_isSome (hs.sublist List.filter_sublist) (fun x hx => hlen x (List.mem_filter.1 hx).1)
        (by omega)
    rw [autoSeparate, hsep, Option.bind_some, node, dif_pos hchild]
    rfl

variable (encs encWidth)

/-- **`auto_separate` raises only on tags that no sequence of bits tells apart**: a field taken too early is never
regretted. -/
theorem separate_isSome_iff (tags : List τ) (hlen : ∀ t ∈ tags, (encs t).length = encWidth) :
    (separate encs encWidth tags).isSome = true ↔ Separable (fun t => (encs t).pattern) tags := by
  constructor
  · intro h
    obtain ⟨T, hT⟩ := Option.isSome_iff_exists.1 h
    exact .of_decides (decides_of_autoSeparate hT)
  · exact fun h => autoSeparate_isSome h hlen (Nat.le_succ _)

/-- `SUBINSN_L2` -/
def subinsnL2 : List Enc := ["00i iissssdddd", "01i iissssdddd", "10i iissssdddd", "111 0iiiiidddd", "111 10iiiiiddd",
  "111 1100---0--", "111 1101---0--", "111 1101---100", "111 1101---101", "111 1101---110", "111 1101---111",
  "111 1111---0--", "111 1111---100", "111 1111---101", "111 1111---110", "111 1111---111"].map fun enc =>
    (encOf enc).padded

/-- The encodings of `SUBINSN_L2` are told apart. -/
theorem subinsnL2_separable : Separable Enc.pattern subinsnL2 :=
  (separate_isSome_iff id 32 subinsnL2 (by decide +kernel)).1 (by decide +kernel)

end Separate

end Dectree
end Hex
