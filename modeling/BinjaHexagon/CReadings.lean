import BinjaHexagon.CInt
/-!
# CReadings — a comparison made at the width of its left side

A machine that compares at one width and one sign cuts the left side to that width and fills up or cuts the right one
without its sign.  It compares what C compares when it reads both sides as C converts them; otherwise there are values
that it puts the other way round.
-/
namespace CInt

/-- The left side at `w` bits. -/
def readLeft (w : Nat) (σ : Bool) (x : Int) : Int := (⟨w, σ⟩ : Ty).conv x

/-- The right side at `w` bits, from `v` bits without sign. -/
def readRight (w v : Nat) (σ : Bool) (y : Int) : Int := (⟨w, σ⟩ : Ty).conv ((⟨v, false⟩ : Ty).conv y)

namespace Ty

/-- Every value of `t` on the left is read as it is converted to the common type `T`. -/
def readsLeft (t T : Ty) (w : Nat) (σ : Bool) : Bool :=
  if t.signed then (if T.signed then σ else !σ && w == T.bits) else !σ || decide (t.bits < w)

/-- Every value of `u` on the right is read as it is converted to the common type `T`. -/
def readsRight (u T : Ty) (w v : Nat) (σ : Bool) : Bool :=
  if u.signed then
    if T.signed then σ && decide (w ≤ v ∧ u.bits ≤ w) else if v < w then v == T.bits else !σ && w == T.bits
  else if σ then decide (u.bits < w) else decide (u.bits ≤ w)

end Ty

section Points

theorem two_pow_lt {a b : Nat} (h : a < b) : 2 * (2 : Int) ^ a ≤ 2 ^ b := by
  calc 2 * (2 : Int) ^ a = 2 ^ (a + 1) := by ring
    _ ≤ 2 ^ b := pow_le_pow_right₀ (by decide) h

theorem two_le_pow {a : Nat} (h : 1 ≤ a) : (2 : Int) ≤ 2 ^ a := by
  calc (2 : Int) = 2 ^ 1 := rfl
    _ ≤ 2 ^ a := pow_le_pow_right₀ (by decide) h

variable {w : Nat} {x : Int}

theorem uconv_of_lt (h0 : 0 ≤ x) (h1 : x < 2 ^ w) : (⟨w, false⟩ : Ty).conv x = x := Ty.fits_unsigned.2 ⟨h0, h1⟩

theorem uconv_of_neg (h0 : -2 ^ w ≤ x) (h1 : x < 0) : (⟨w, false⟩ : Ty).conv x = x + 2 ^ w := by
  refine Ty.Fits.conv_eq (Ty.fits_unsigned.2 ⟨by omega, by omega⟩) (ofInt_add_pow w x).symm

theorem sfits_iff (hw : 1 ≤ w) : (⟨w, true⟩ : Ty).Fits x ↔ -2 ^ (w - 1) ≤ x ∧ x < 2 ^ (w - 1) := by
  obtain ⟨c, rfl⟩ := Nat.exists_eq_succ_of_ne_zero (Nat.ne_of_gt hw)
  exact Ty.fits_signed

theorem conv_of_half {σ : Bool} (hw : 1 ≤ w) (h0 : 0 ≤ x) (h1 : x < 2 ^ (w - 1)) : (⟨w, σ⟩ : Ty).conv x = x := by
  have hp := two_pow_lt (show w - 1 < w by omega)
  cases σ with
  | false => exact uconv_of_lt h0 (by omega)
  | true => exact (sfits_iff hw).2 ⟨by omega, h1⟩

theorem sconv_half (hw : 1 ≤ w) : (⟨w, true⟩ : Ty).conv (2 ^ (w - 1)) = -2 ^ (w - 1) := by
  have hp := two_pow_lt (show w - 1 < w by omega)
  have hpos : (0 : Int) < 2 ^ (w - 1) := by positivity
  have hsucc : (2 : Int) ^ w = 2 * 2 ^ (w - 1) := by
    rw [← pow_succ', Nat.sub_add_cancel hw]
  refine Ty.Fits.conv_eq ((sfits_iff hw).2 ⟨le_refl _, by omega⟩) ?_
  rw [← ofInt_sub_pow, hsucc]
  exact congrArg _ (by ring)

theorem sconv_neg (hw : 2 ≤ w) (h0 : -2 ≤ x) (h1 : x < 0) : (⟨w, true⟩ : Ty).conv x = x := by
  have hp := two_le_pow (show 1 ≤ w - 1 by omega)
  exact (sfits_iff (by omega)).2 ⟨by omega, by omega⟩

theorem conv_pow (w : Nat) (σ : Bool) : (⟨w, σ⟩ : Ty).conv (2 ^ w) = 0 := by
  refine Ty.Fits.conv_eq (Ty.fits_zero _) ?_
  have := ofInt_add_pow w 0
  rwa [zero_add] at this

theorem readLeft_zero (w : Nat) (σ : Bool) : readLeft w σ 0 = 0 := Ty.fits_zero _

theorem readRight_zero (w v : Nat) (σ : Bool) : readRight w v σ 0 = 0 := by
  rw [readRight, Ty.fits_zero, Ty.fits_zero]

theorem readRight_cut {v : Nat} (h : w ≤ v) (σ : Bool) (y : Int) : readRight w v σ y = (⟨w, σ⟩ : Ty).conv y :=
  Ty.conv_conv_of_le (t := ⟨w, σ⟩) (u := ⟨v, false⟩) h y

theorem readRight_fill {v : Nat} (h : v < w) (σ : Bool) (y : Int) : readRight w v σ y = (⟨v, false⟩ : Ty).conv y := by
  obtain ⟨h0, h1⟩ := Ty.fits_unsigned.1 (Ty.fits_conv ⟨v, false⟩ y)
  have hp : (2 : Int) ^ v ≤ 2 ^ (w - 1) := pow_le_pow_right₀ (by decide) (by omega)
  exact conv_of_half (by omega) h0 (by omega)

end Points

section Common

variable {t u : Ty} {x : Int}

theorem bits_le_promote (t : Ty) : t.bits ≤ t.promote.bits := by
  unfold Ty.promote
  split
  · exact Nat.le_of_lt (by assumption)
  · exact Nat.le_refl _

theorem bits_le_common (t u : Ty) : t.bits ≤ (t.common u).bits ∧ u.bits ≤ (t.common u).bits := by
  rw [Ty.bits_common]
  exact ⟨(bits_le_promote t).trans (Nat.le_max_left _ _), (bits_le_promote u).trans (Nat.le_max_right _ _)⟩

theorem promote_unsigned (h : t.promote.signed = false) : t.promote = t ∧ 32 ≤ t.bits ∧ t.signed = false := by
  unfold Ty.promote at h ⊢
  split
  · rename_i hlt
    rw [if_pos hlt] at h
    cases h
  · rename_i hlt
    rw [if_neg hlt] at h
    exact ⟨rfl, Nat.le_of_not_lt hlt, h⟩

/-- A common type without sign is that of one of the sides. -/
theorem common_unsigned (h : (t.common u).signed = false) : 32 ≤ (t.common u).bits ∧
    (t.signed = false ∧ (t.common u).bits = t.bits ∨ u.signed = false ∧ (t.common u).bits = u.bits) := by
  unfold Ty.common at h ⊢
  dsimp only at h ⊢
  split
  · rename_i hb
    rw [if_pos hb, Bool.and_eq_false_iff] at h
    dsimp only
    rcases h with h | h
    · obtain ⟨ht, h32, hs⟩ := promote_unsigned h
      rw [ht]
      exact ⟨h32, .inl ⟨hs, rfl⟩⟩
    · obtain ⟨hu, h32, hs⟩ := promote_unsigned h
      rw [hb, hu]
      exact ⟨h32, .inr ⟨hs, rfl⟩⟩
  · rename_i hb
    rw [if_neg hb] at h
    split
    · rename_i hlt
      rw [if_pos hlt] at h
      obtain ⟨hu, h32, hs⟩ := promote_unsigned h
      rw [hu]
      exact ⟨h32, .inr ⟨hs, rfl⟩⟩
    · rename_i hlt
      rw [if_neg hlt] at h
      obtain ⟨ht, h32, hs⟩ := promote_unsigned h
      rw [ht]
      exact ⟨h32, .inl ⟨hs, rfl⟩⟩

/-- The conversion to the common type keeps what is not negative. -/
theorem common_nonneg (h : t.Fits x) (h0 : 0 ≤ x) : (t.common u).conv x = x := by
  cases hs : (t.common u).signed with
  | true => exact h.common_left hs
  | false =>
    have hT : t.common u = ⟨(t.common u).bits, false⟩ := by rw [← hs]
    have hx : x < 2 ^ t.bits := by
      obtain ⟨b, sg⟩ := t
      cases sg with
      | false => exact (Ty.fits_unsigned.1 h).2
      | true =>
        cases b with
        | zero =>
          have hzero : x = 0 := by simpa [Ty.Fits, Ty.conv_signed, Int.bmod_one] using h.symm
          rw [hzero]
          decide
        | succ b =>
          have hp := two_pow_lt (Nat.lt_succ_self b)
          have hlt := (Ty.fits_signed.1 h).2
          have hpos : (0 : Int) < 2 ^ b := by positivity
          change x < 2 ^ (b + 1)
          omega
    have hp : (2 : Int) ^ t.bits ≤ 2 ^ (t.common u).bits := pow_le_pow_right₀ (by decide) (bits_le_common t u).1
    rw [hT]
    exact uconv_of_lt h0 (by omega)

theorem common_nonneg_right (h : u.Fits x) (h0 : 0 ≤ x) : (t.common u).conv x = x := by
  rw [Ty.common_comm]
  exact common_nonneg h h0

/-- Where the common type has no sign, what is negative goes to its top. -/
theorem common_neg {T : Ty} (hs : T.signed = false) (h32 : 32 ≤ T.bits) (h0 : -2 ≤ x) (h1 : x < 0) :
    T.conv x = x + 2 ^ T.bits := by
  have hp := two_le_pow (show 1 ≤ T.bits by omega)
  have hT : T = ⟨T.bits, false⟩ := by rw [← hs]
  rw [hT]
  exact uconv_of_neg (by omega) h1

theorem fits_neg {b : Nat} (hb : 2 ≤ b) (hs : t = ⟨b, true⟩) (h0 : -2 ≤ x) (h1 : x < 0) : t.Fits x :=
  hs ▸ sconv_neg hb h0 h1

theorem fits_unsigned_lt (hs : t.signed = false) (h0 : 0 ≤ x) (h1 : x < 2 ^ t.bits) : t.Fits x := by
  obtain ⟨b, sg⟩ := t
  cases hs
  exact uconv_of_lt h0 h1

end Common

section Alike

variable {t u : Ty} {w v : Nat} {σ : Bool} {x y : Int}

theorem readLeft_eq (hw : t.bits ≤ w) (h : t.readsLeft (t.common u) w σ = true) (hx : t.Fits x) :
    readLeft w σ x = (t.common u).conv x := by
  unfold Ty.readsLeft at h
  cases ht : t.signed with
  | true =>
    rw [ht, if_pos rfl] at h
    cases hs : (t.common u).signed with
    | true =>
      rw [hs, if_pos rfl] at h
      rw [hx.common_left hs]
      exact hx.mono (.inl ⟨hw, by rw [ht, h]⟩)
    | false =>
      rw [hs, if_neg Bool.false_ne_true, Bool.and_eq_true, Bool.not_eq_true', beq_iff_eq] at h
      rw [readLeft, h.1, h.2, ← hs]
  | false =>
    rw [ht, if_neg Bool.false_ne_true, Bool.or_eq_true, Bool.not_eq_true', decide_eq_true_eq] at h
    have h0 : 0 ≤ x := by
      have := Ty.conv_nonneg ht x
      rwa [hx] at this
    rw [common_nonneg hx h0]
    cases σ with
    | false => exact hx.mono (.inl ⟨hw, ht⟩)
    | true => exact hx.mono (.inr ⟨by simpa using h, rfl⟩)

theorem readRight_eq (hv : u.bits ≤ v) (h : u.readsRight (t.common u) w v σ = true) (hy : u.Fits y) :
    readRight w v σ y = (t.common u).conv y := by
  unfold Ty.readsRight at h
  cases hu : u.signed with
  | true =>
    rw [hu, if_pos rfl] at h
    cases hs : (t.common u).signed with
    | true =>
      rw [hs, if_pos rfl, Bool.and_eq_true, decide_eq_true_eq] at h
      rw [readRight_cut h.2.1, hy.common_right hs]
      exact hy.mono (.inl ⟨h.2.2, by rw [hu, h.1]⟩)
    | false =>
      have hT : t.common u = ⟨(t.common u).bits, false⟩ := by rw [← hs]
      rw [hs, if_neg Bool.false_ne_true] at h
      split at h
      · rename_i hlt
        rw [readRight_fill hlt, hT, ← beq_iff_eq.1 h]
      · rename_i hle
        rw [Bool.and_eq_true, Bool.not_eq_true', beq_iff_eq] at h
        rw [readRight_cut (Nat.le_of_not_lt hle), hT, h.1, h.2]
  | false =>
    rw [hu, if_neg Bool.false_ne_true] at h
    have h0 : 0 ≤ y := by
      have := Ty.conv_nonneg hu y
      rwa [hy] at this
    have hfull : (⟨v, false⟩ : Ty).conv y = y := hy.mono (.inl ⟨hv, hu⟩)
    rw [readRight, hfull, common_nonneg_right hy h0]
    cases σ with
    | false => exact hy.mono (.inl ⟨by simpa using h, hu⟩)
    | true => exact hy.mono (.inr ⟨by simpa using h, rfl⟩)

/-- Two values that are read the other way round. -/
def Disorder (t u : Ty) (w v : Nat) (σ : Bool) : Prop := ∃ x y, t.Fits x ∧ u.Fits y ∧
  (readLeft w σ x < readRight w v σ y ∧ (t.common u).conv y < (t.common u).conv x ∨
    readRight w v σ y < readLeft w σ x ∧ (t.common u).conv x < (t.common u).conv y)

theorem disorder_left (hx : t.Fits x) (h : readLeft w σ x < 0 ∧ 0 < (t.common u).conv x ∨
    0 < readLeft w σ x ∧ (t.common u).conv x < 0) : Disorder t u w v σ := by
  refine ⟨x, 0, hx, Ty.fits_zero _, ?_⟩
  rw [readRight_zero, Ty.fits_zero]
  exact h

theorem disorder_right (hy : u.Fits y) (h : readRight w v σ y < 0 ∧ 0 < (t.common u).conv y ∨
    0 < readRight w v σ y ∧ (t.common u).conv y < 0) : Disorder t u w v σ := by
  refine ⟨0, y, Ty.fits_zero _, hy, ?_⟩
  rw [readLeft_zero, Ty.fits_zero]
  exact h.symm

/-- A right side that is too wide loses `2 ^ w`. -/
theorem disorder_cut (ht : 2 ≤ t.bits) (hw : t.bits ≤ w) (hv : u.bits ≤ v) (hu : u.signed = false) (h : w < u.bits) :
    Disorder t u w v σ := by
  have hp := two_le_pow (show 1 ≤ w - 1 by omega)
  have hp' := two_pow_lt (show w - 1 < w by omega)
  have hone : t.Fits 1 := by
    obtain ⟨b, sg⟩ := t
    exact conv_of_half (by dsimp only at ht; omega) (by decide) (two_le_pow (by dsimp only at ht; omega))
  have hpow : u.Fits (2 ^ w) :=
    fits_unsigned_lt hu (by positivity) (by have := two_pow_lt h; omega)
  refine ⟨1, 2 ^ w, hone, hpow, .inr ?_⟩
  rw [common_nonneg hone (by decide), common_nonneg_right hpow (by positivity), readRight_cut (by omega), conv_pow,
    readLeft, conv_of_half (by omega) (by decide) (by omega)]
  omega

theorem disorder_of_left (ht : 2 ≤ t.bits) (hw : t.bits ≤ w) (hv : u.bits ≤ v)
    (h : t.readsLeft (t.common u) w σ = false) : Disorder t u w v σ := by
  unfold Ty.readsLeft at h
  cases hts : t.signed with
  | false =>
    rw [hts, if_neg Bool.false_ne_true, Bool.or_eq_false_iff, Bool.not_eq_false', decide_eq_false_iff_not] at h
    obtain ⟨rfl, hlt⟩ := h
    have hhalf : t.Fits (2 ^ (w - 1)) := by
      have hp := two_pow_lt (show w - 1 < t.bits by omega)
      have hpos : (0 : Int) < 2 ^ (w - 1) := by positivity
      exact fits_unsigned_lt hts hpos.le (by omega)
    refine disorder_left hhalf (.inl ?_)
    have hpos : (0 : Int) < 2 ^ (w - 1) := by positivity
    rw [common_nonneg hhalf hpos.le, readLeft, sconv_half (by omega)]
    exact ⟨by omega, hpos⟩
  | true =>
    have hT : t = ⟨t.bits, true⟩ := by rw [← hts]
    have hneg : ∀ {z : Int}, -2 ≤ z → z < 0 → t.Fits z := fits_neg ht hT
    have hminus : t.Fits (-1) := hneg (by decide) (by decide)
    have hp := two_le_pow (show 1 ≤ w - 1 by omega)
    have hp' := two_pow_lt (show w - 1 < w by omega)
    rw [hts, if_pos rfl] at h
    cases hs : (t.common u).signed with
    | true =>
      rw [hs, if_pos rfl] at h
      refine disorder_left hminus (.inr ?_)
      rw [hminus.common_left hs, readLeft, h, uconv_of_neg (by omega) (by decide)]
      omega
    | false =>
      obtain ⟨h32, hside⟩ := common_unsigned hs
      obtain ⟨hus, hub⟩ : u.signed = false ∧ (t.common u).bits = u.bits :=
        hside.resolve_left fun h => by rw [hts] at h; cases h.1
      have hB := two_le_pow (show 1 ≤ (t.common u).bits by omega)
      rw [hs, if_neg Bool.false_ne_true, Bool.and_eq_false_iff, Bool.not_eq_false'] at h
      cases σ with
      | true =>
        refine disorder_left hminus (.inl ?_)
        rw [common_neg hs h32 (by decide) (by decide), readLeft, sconv_neg (by omega) (by decide) (by decide)]
        omega
      | false =>
        have hne : w ≠ (t.common u).bits := by simpa using h
        rcases Nat.lt_or_gt_of_ne hne with hlt | hlt
        · exact disorder_cut ht hw hv hus (by omega)
        · have hBw := two_pow_lt hlt
          have htop : u.Fits (2 ^ u.bits - 1) := fits_unsigned_lt hus (by rw [← hub]; omega) (by omega)
          refine ⟨-2, 2 ^ u.bits - 1, hneg (by decide) (by decide), htop, .inr ?_⟩
          rw [common_neg hs h32 (by decide) (by decide), common_nonneg_right htop (by rw [← hub]; omega), readLeft,
            uconv_of_neg (by omega) (by decide), readRight, uconv_of_lt (w := v) (by rw [← hub]; omega) ?_,
            uconv_of_lt (by rw [← hub]; omega) (by rw [← hub]; omega), ← hub]
          · omega
          · have hbv : (2 : Int) ^ u.bits ≤ 2 ^ v := pow_le_pow_right₀ (by decide) hv
            omega

/-- The right side is read otherwise than C converts it, the left one as C does. -/
theorem disorder_of_right (ht : 2 ≤ t.bits) (hu : 2 ≤ u.bits) (hw : t.bits ≤ w) (hv : u.bits ≤ v)
    (hl : t.readsLeft (t.common u) w σ = true) (h : u.readsRight (t.common u) w v σ = false) : Disorder t u w v σ := by
  have hp := two_le_pow (show 1 ≤ w - 1 by omega)
  have hp' := two_pow_lt (show w - 1 < w by omega)
  have hpv := two_pow_lt (show v - 1 < v by omega)
  have hpv' := two_le_pow (show 1 ≤ v - 1 by omega)
  unfold Ty.readsRight at h
  cases hus : u.signed with
  | false =>
    rw [hus, if_neg Bool.false_ne_true] at h
    cases σ with
    | false => exact disorder_cut ht hw hv hus (by simpa using h)
    | true =>
      have hwu : w ≤ u.bits := by simpa using h
      have hlt := two_pow_lt (show w - 1 < u.bits by omega)
      have hhalf : u.Fits (2 ^ (w - 1)) := fits_unsigned_lt hus (by positivity) (by omega)
      refine disorder_right hhalf (.inl ?_)
      rw [common_nonneg_right hhalf (by positivity), readRight_cut (by omega), sconv_half (by omega)]
      omega
  | true =>
    have hU : u = ⟨u.bits, true⟩ := by rw [← hus]
    have hneg : ∀ {z : Int}, -2 ≤ z → z < 0 → u.Fits z := fits_neg hu hU
    have hminus : u.Fits (-1) := hneg (by decide) (by decide)
    rw [hus, if_pos rfl] at h
    cases hs : (t.common u).signed with
    | true =>
      rw [hs, if_pos rfl, Bool.and_eq_false_iff, decide_eq_false_iff_not] at h
      have hconv : (t.common u).conv (-1) = -1 := hminus.common_right hs
      rcases Nat.lt_or_ge v w with hvw | hvw
      · refine disorder_right hminus (.inr ?_)
        rw [hconv, readRight_fill hvw, uconv_of_neg (by omega) (by decide)]
        omega
      · cases σ with
        | false =>
          refine disorder_right hminus (.inr ?_)
          rw [hconv, readRight_cut hvw, uconv_of_neg (by omega) (by decide)]
          omega
        | true =>
          have hwu : w < u.bits := by
            by_contra hle
            exact h.elim (fun hn => Bool.noConfusion hn) (fun hn => hn ⟨hvw, by omega⟩)
          have hlt := two_pow_lt (show w - 1 < u.bits - 1 by omega)
          have hhalf : u.Fits (2 ^ (w - 1)) := by
            rw [hU]
            exact (sfits_iff (by omega)).2 ⟨by omega, by omega⟩
          refine disorder_right hhalf (.inl ?_)
          rw [common_nonneg_right hhalf (by positivity), readRight_cut hvw, sconv_half (by omega)]
          omega
    | false =>
      obtain ⟨h32, hside⟩ := common_unsigned hs
      obtain ⟨hts, htb⟩ : t.signed = false ∧ (t.common u).bits = t.bits :=
        hside.resolve_right fun h => by rw [hus] at h; cases h.1
      have hconv : ∀ {z : Int}, -2 ≤ z → z < 0 → (t.common u).conv z = z + 2 ^ t.bits := fun h0 h1 => by
        rw [common_neg hs h32 h0 h1, htb]
      have hpt := two_pow_lt (show t.bits - 1 < t.bits by omega)
      have hpt' := two_le_pow (show 1 ≤ t.bits - 1 by omega)
      -- the left side has the common type, and is read as it is
      have hread : ∀ {z : Int}, 0 ≤ z → z < 2 ^ t.bits → t.Fits z ∧ readLeft w σ z = z ∧ (t.common u).conv z = z := by
        intro z h0 h1
        have hz := fits_unsigned_lt hts h0 h1
        exact ⟨hz, (readLeft_eq hw hl hz).trans (common_nonneg hz h0), common_nonneg hz h0⟩
      obtain ⟨htop, hltop, hctop⟩ := hread (z := 2 ^ t.bits - 1) (by omega) (by omega)
      rw [hs, if_neg Bool.false_ne_true] at h
      rcases Nat.lt_or_ge v w with hvw | hvw
      · rw [if_pos hvw, htb] at h
        have hne : v ≠ t.bits := by simpa using h
        rcases Nat.lt_or_gt_of_ne hne with hlt | hlt
        · have hvt := two_pow_lt hlt
          obtain ⟨hfit, hlv, hcv⟩ := hread (z := 2 ^ v) (by omega) (by omega)
          refine ⟨2 ^ v, -1, hfit, hneg (by decide) (by decide), .inr ?_⟩
          rw [hlv, hcv, hconv (by decide) (by decide), readRight_fill hvw, uconv_of_neg (by omega) (by decide)]
          omega
        · have htv := two_pow_lt hlt
          refine ⟨2 ^ t.bits - 1, -2, htop, hneg (by decide) (by decide), .inl ?_⟩
          rw [hltop, hctop, hconv (by decide) (by decide), readRight_fill hvw, uconv_of_neg (by omega) (by decide)]
          omega
      · rw [if_neg (Nat.not_lt.2 hvw), htb, Bool.and_eq_false_iff, Bool.not_eq_false'] at h
        cases σ with
        | true =>
          refine disorder_right hminus (.inl ?_)
          rw [hconv (by decide) (by decide), readRight_cut hvw, sconv_neg (by omega) (by decide) (by decide)]
          omega
        | false =>
          have hne : w ≠ t.bits := by simpa using h
          have htw := two_pow_lt (show t.bits < w by omega)
          refine ⟨2 ^ t.bits - 1, -2, htop, hneg (by decide) (by decide), .inl ?_⟩
          rw [hltop, hctop, hconv (by decide) (by decide), readRight_cut hvw, uconv_of_neg (by omega) (by decide)]
          omega

variable (σ) in
/-- **The order of the readings is that of C for all values, or some two values are put the other way round.** -/
theorem reads_or_disorder (ht : 2 ≤ t.bits) (hu : 2 ≤ u.bits) (hw : t.bits ≤ w) (hv : u.bits ≤ v) :
    (t.readsLeft (t.common u) w σ && u.readsRight (t.common u) w v σ) = true ∧
        (∀ x y, t.Fits x → u.Fits y → readLeft w σ x = (t.common u).conv x ∧ readRight w v σ y = (t.common u).conv y) ∨
      (t.readsLeft (t.common u) w σ && u.readsRight (t.common u) w v σ) = false ∧ Disorder t u w v σ := by
  cases hl : t.readsLeft (t.common u) w σ with
  | false => exact .inr ⟨rfl, disorder_of_left ht hw hv hl⟩
  | true =>
    cases hr : u.readsRight (t.common u) w v σ with
    | false => exact .inr ⟨rfl, disorder_of_right ht hu hw hv hl hr⟩
    | true => exact .inl ⟨rfl, fun x y hx hy => ⟨readLeft_eq hw hl hx, readRight_eq hv hr hy⟩⟩

theorem readings_eq_iff (σ : Bool) (x y : Int) :
    readLeft w σ x = readRight w v σ y ↔ readLeft w false x = readRight w v false y :=
  (Ty.conv_eq_iff (t := ⟨w, σ⟩)).trans (Ty.conv_eq_iff (t := ⟨w, false⟩)).symm

end Alike

/-- Equality is tested as C does: both sides are read as C converts them, at one of the signs, or a negative right side
is filled up to where no value of the left one is. -/
def Ty.readsEqual (t u : Ty) (w v : Nat) : Bool :=
  let T := t.common u
  (t.readsLeft T w true && u.readsRight T w v true) || (t.readsLeft T w false && u.readsRight T w v false) ||
    (T.signed && u.signed && !t.signed && decide (v < w ∧ t.bits < v))

section Equal

variable {t u : Ty} {w v : Nat} {σ : Bool} {x y : Int}

theorem equal_of_readsEqual (hu : 2 ≤ u.bits) (hw : t.bits ≤ w) (hv : u.bits ≤ v) (h : t.readsEqual u w v = true)
    (hx : t.Fits x) (hy : u.Fits y) :
    readLeft w false x = readRight w v false y ↔ (t.common u).conv x = (t.common u).conv y := by
  have hsame : ∀ σ, (t.readsLeft (t.common u) w σ && u.readsRight (t.common u) w v σ) = true →
      (readLeft w false x = readRight w v false y ↔ (t.common u).conv x = (t.common u).conv y) := by
    intro σ hσ
    rw [Bool.and_eq_true] at hσ
    rw [← readings_eq_iff σ, readLeft_eq hw hσ.1 hx, readRight_eq hv hσ.2 hy]
  simp only [Ty.readsEqual, Bool.or_eq_true] at h
  rcases h with (h | h) | h
  · exact hsame true h
  · exact hsame false h
  · simp only [Bool.and_eq_true, Bool.not_eq_true', decide_eq_true_eq] at h
    obtain ⟨⟨⟨hs, hus⟩, hts⟩, hvw, htv⟩ := h
    have hT : t = ⟨t.bits, false⟩ := by rw [← hts]
    have hU : u = ⟨u.bits, true⟩ := by rw [← hus]
    have hx' := hx
    have hy' := hy
    rw [hT] at hx'
    rw [hU] at hy'
    obtain ⟨hx0, hx1⟩ := Ty.fits_unsigned.1 hx'
    obtain ⟨hy0, hy1⟩ := (sfits_iff (by omega)).1 hy'
    have htw : (2 : Int) ^ t.bits ≤ 2 ^ w := pow_le_pow_right₀ (by decide) hw
    have htv' := two_pow_lt htv
    have huv : (2 : Int) ^ (u.bits - 1) ≤ 2 ^ (v - 1) := pow_le_pow_right₀ (by decide) (by omega)
    have hvv := two_pow_lt (show v - 1 < v by omega)
    have htv1 : (2 : Int) ^ t.bits ≤ 2 ^ (v - 1) := pow_le_pow_right₀ (by decide) (by omega)
    rw [hx.common_left hs, hy.common_right hs, readLeft, uconv_of_lt hx0 (by omega), readRight_fill hvw]
    rcases Int.lt_or_le y 0 with hneg | hpos
    · rw [uconv_of_neg (by omega) hneg]
      omega
    · rw [uconv_of_lt hpos (by omega)]

/-- Two values that are equal at `w` bits and different in C, or the other way round. -/
def Confused (t u : Ty) (w v : Nat) : Prop := ∃ x y, t.Fits x ∧ u.Fits y ∧
  ¬ (readLeft w false x = readRight w v false y ↔ (t.common u).conv x = (t.common u).conv y)

theorem confused_zero (hy : u.Fits y) (hr : readRight w v false y = 0) (hc : (t.common u).conv y ≠ 0) :
    Confused t u w v := by
  refine ⟨0, y, Ty.fits_zero _, hy, fun hiff => hc ?_⟩
  have := hiff.1 ((readLeft_zero w false).trans hr.symm)
  rw [Ty.fits_zero] at this
  exact this.symm

theorem confused_pow (hv : u.bits ≤ v) (hus : u.signed = false) (h : w < u.bits) : Confused t u w v := by
  have hlt := two_pow_lt h
  have hpos : (0 : Int) < 2 ^ w := by positivity
  have hfit : u.Fits (2 ^ w) := fits_unsigned_lt hus hpos.le (by omega)
  refine confused_zero hfit (by rw [readRight_cut (by omega), conv_pow]) ?_
  rw [common_nonneg_right hfit hpos.le]
  exact hpos.ne'

theorem confused_neg_pow (hv : u.bits ≤ v) (hus : u.signed = true) (hs : (t.common u).signed = true) (h : w < u.bits) :
    Confused t u w v := by
  have hle : (2 : Int) ^ w ≤ 2 ^ (u.bits - 1) := pow_le_pow_right₀ (by decide) (by omega)
  have hpos : (0 : Int) < 2 ^ w := by positivity
  have hfit : u.Fits (-2 ^ w) := by
    have hU : u = ⟨u.bits, true⟩ := by rw [← hus]
    rw [hU]
    exact (sfits_iff (by omega)).2 ⟨by omega, by omega⟩
  refine confused_zero hfit ?_ (by rw [hfit.common_right hs]; omega)
  rw [readRight_cut (by omega), uconv_of_neg (le_refl _) (by omega)]
  omega

/-- A left side without sign, and a negative right side. -/
theorem confused_of_unsigned (hu : 2 ≤ u.bits) (ht : 2 ≤ t.bits) (hw : t.bits ≤ w) (hv : u.bits ≤ v)
    (hts : t.signed = false) (hus : u.signed = true) (h : t.readsEqual u w v = false) : Confused t u w v := by
  have hp := two_le_pow (show 1 ≤ w by omega)
  have hpv := two_le_pow (show 1 ≤ v by omega)
  have hneg : u.Fits (-1) := fits_neg hu (by rw [← hus]) (by decide) (by decide)
  simp only [Ty.readsEqual, Bool.or_eq_false_iff] at h
  obtain ⟨⟨h1, h2⟩, h3⟩ := h
  cases hs : (t.common u).signed with
  | true =>
    have hc := hneg.common_right hs
    simp only [Ty.readsLeft, Ty.readsRight, hts, hus, hs, if_true, Bool.false_eq_true, if_false, Bool.not_true,
      Bool.false_or, Bool.true_and, Bool.not_false] at h1 h3
    rcases Nat.lt_or_ge v w with hvw | hvw
    · have hle : (2 : Int) ^ v ≤ 2 ^ t.bits := pow_le_pow_right₀ (by decide) (by simp [hvw] at h3; omega)
      have hvw' := two_pow_lt hvw
      have hfit : t.Fits (2 ^ v - 1) := fits_unsigned_lt hts (by omega) (by omega)
      refine ⟨2 ^ v - 1, -1, hfit, hneg, fun hiff => ?_⟩
      rw [hc, common_nonneg hfit (by omega), readLeft, uconv_of_lt (by omega) (by omega), readRight_fill hvw,
        uconv_of_neg (by omega) (by decide)] at hiff
      omega
    · rcases Nat.lt_or_ge w u.bits with hwu | hwu
      · exact confused_neg_pow hv hus hs hwu
      · obtain rfl : t.bits = w := by simp [hvw, hwu] at h1; omega
        have hfit : t.Fits (2 ^ t.bits - 1) := fits_unsigned_lt hts (by omega) (by omega)
        refine ⟨2 ^ t.bits - 1, -1, hfit, hneg, fun hiff => ?_⟩
        rw [hc, common_nonneg hfit (by omega), readLeft, uconv_of_lt (by omega) (by omega), readRight_cut hvw,
          uconv_of_neg (by omega) (by decide)] at hiff
        omega
  | false =>
    obtain ⟨h32, hside⟩ := common_unsigned hs
    obtain ⟨-, htb⟩ := hside.resolve_right fun h => by rw [hus] at h; cases h.1
    have hpt := two_le_pow (show 1 ≤ t.bits by omega)
    have hle : (2 : Int) ^ t.bits ≤ 2 ^ w := pow_le_pow_right₀ (by decide) hw
    have hfit : t.Fits (2 ^ t.bits - 1) := fits_unsigned_lt hts (by omega) (by omega)
    refine ⟨2 ^ t.bits - 1, -1, hfit, hneg, fun hiff => ?_⟩
    have heq := hiff.2 (by rw [common_nonneg hfit (by omega), common_neg hs h32 (by decide) (by decide), htb]; omega)
    simp only [Ty.readsLeft, Ty.readsRight, hts, hus, hs, if_true, Bool.false_eq_true, if_false, Bool.not_false,
      Bool.true_or, Bool.true_and, htb] at h2
    rw [readLeft, uconv_of_lt (by omega) (by omega)] at heq
    rcases Nat.lt_or_ge v w with hvw | hvw
    · rw [readRight_fill hvw, uconv_of_neg (by omega) (by decide)] at heq
      rcases Nat.lt_or_gt_of_ne (show v ≠ t.bits by simpa [hvw] using h2) with hlt | hlt
      · have := two_pow_lt hlt
        omega
      · have := two_pow_lt hlt
        omega
    · have hne : w ≠ t.bits := by simpa [Nat.not_lt.2 hvw] using h2
      have := two_pow_lt (show t.bits < w by omega)
      rw [readRight_cut hvw, uconv_of_neg (by omega) (by decide)] at heq
      omega

theorem confused_of_signed (hu : 2 ≤ u.bits) (ht : 2 ≤ t.bits) (hw : t.bits ≤ w) (hv : u.bits ≤ v)
    (hts : t.signed = true) (h : t.readsEqual u w v = false) : Confused t u w v := by
  have hp := two_le_pow (show 1 ≤ w by omega)
  have hpv := two_le_pow (show 1 ≤ v by omega)
  have hneg : t.Fits (-1) := fits_neg ht (by rw [← hts]) (by decide) (by decide)
  simp only [Ty.readsEqual, Bool.or_eq_false_iff] at h
  obtain ⟨⟨h1, h2⟩, -⟩ := h
  cases hs : (t.common u).signed with
  | true =>
    have hc := hneg.common_left hs
    cases hus : u.signed with
    | false =>
      have hle : w ≤ u.bits := by simpa [Ty.readsLeft, Ty.readsRight, hts, hus, hs] using h1
      have hpow : (2 : Int) ^ w ≤ 2 ^ u.bits := pow_le_pow_right₀ (by decide) hle
      have hpow' : (2 : Int) ^ u.bits ≤ 2 ^ v := pow_le_pow_right₀ (by decide) hv
      have hfit : u.Fits (2 ^ w - 1) := fits_unsigned_lt hus (by omega) (by omega)
      refine ⟨-1, 2 ^ w - 1, hneg, hfit, fun hiff => ?_⟩
      rw [hc, common_nonneg_right hfit (by omega), readLeft, uconv_of_neg (by omega) (by decide),
        readRight_cut (by omega), uconv_of_lt (by omega) (by omega)] at hiff
      omega
    | true =>
      rcases Nat.lt_or_ge v w with hvw | hvw
      · have hvw' := two_pow_lt hvw
        refine ⟨-1, -1, hneg, fits_neg hu (by rw [← hus]) (by decide) (by decide), fun hiff => ?_⟩
        rw [readLeft, uconv_of_neg (by omega) (by decide), readRight_fill hvw,
          uconv_of_neg (by omega) (by decide)] at hiff
        omega
      · refine confused_neg_pow hv hus hs ?_
        simpa [Ty.readsLeft, Ty.readsRight, hts, hus, hs, hvw] using h1
  | false =>
    obtain ⟨h32, hside⟩ := common_unsigned hs
    obtain ⟨hus, hub⟩ := hside.resolve_left fun h => by rw [hts] at h; cases h.1
    rcases Nat.lt_trichotomy w u.bits with hlt | heq | hlt
    · exact confused_pow hv hus hlt
    · simp [Ty.readsLeft, Ty.readsRight, hts, hus, hs, hub, heq] at h2
    · have hlt' := two_pow_lt hlt
      have hpu := two_le_pow (show 1 ≤ u.bits by omega)
      have huv : (2 : Int) ^ u.bits ≤ 2 ^ v := pow_le_pow_right₀ (by decide) hv
      have hfit : u.Fits (2 ^ u.bits - 1) := fits_unsigned_lt hus (by omega) (by omega)
      refine ⟨-1, 2 ^ u.bits - 1, hneg, hfit, fun hiff => ?_⟩
      have hcommon : (t.common u).conv (-1) = (t.common u).conv (2 ^ u.bits - 1) := by
        rw [common_nonneg_right hfit (by omega), common_neg hs h32 (by decide) (by decide), hub]
        omega
      have heq := hiff.2 hcommon
      rw [readLeft, uconv_of_neg (by omega) (by decide), readRight, uconv_of_lt (w := v) (by omega) (by omega),
        uconv_of_lt (by omega) (by omega)] at heq
      omega

/-- **Equality at `w` bits is that of C for all values, or some two values are confused.** -/
theorem equal_or_confused (ht : 2 ≤ t.bits) (hu : 2 ≤ u.bits) (hw : t.bits ≤ w) (hv : u.bits ≤ v) :
    t.readsEqual u w v = true ∧ (∀ x y, t.Fits x → u.Fits y →
        (readLeft w false x = readRight w v false y ↔ (t.common u).conv x = (t.common u).conv y)) ∨
      t.readsEqual u w v = false ∧ Confused t u w v := by
  cases h : t.readsEqual u w v with
  | true => exact .inl ⟨rfl, fun x y hx hy => equal_of_readsEqual hu hw hv h hx hy⟩
  | false =>
    refine .inr ⟨rfl, ?_⟩
    cases hts : t.signed with
    | true => exact confused_of_signed hu ht hw hv hts h
    | false =>
      cases hus : u.signed with
      | true => exact confused_of_unsigned hu ht hw hv hts hus h
      | false =>
        refine confused_pow hv hus ?_
        simp only [Ty.readsEqual, Bool.or_eq_false_iff] at h
        simpa [Ty.readsLeft, Ty.readsRight, hts, hus] using h.1.2

end Equal

end CInt
