import BinjaHexagon.MacroValue
/-!
# MacroKeeps — when a lifted macro keeps the value C gives it

One equivalence for each macro, between the value of what it is lifted to and the value of its C text, on arguments
whose low bits are those of their C values.
-/
namespace Hex

open CInt (Ty Val)

/-- A number that `s` bytes hold at one sign or the other. -/
def Near (s : Nat) (x : Int) : Prop := (ilTy s true).Fits x ∨ (ilTy s false).Fits x

section Part

variable {s p n : Nat} {x : Int}

theorem signed_of_not_fits (hs : 1 ≤ s) (hx : Near s x) (hf : ¬(ilTy s true).Fits x) :
    (ilTy s true).conv x = x - 2 ^ (8 * s) ∧ 0 ≤ x ∧ x < 2 ^ (8 * s) := by
  obtain ⟨h0, h1⟩ := Ty.fits_unsigned.1 (hx.resolve_left hf)
  obtain ⟨b, hb⟩ : ∃ b, 8 * s = b + 1 := ⟨8 * s - 1, by omega⟩
  rw [ilTy, hb] at hf ⊢
  rw [hb] at h1
  have hp : (2 : Int) ^ (b + 1) = 2 * 2 ^ b := by ring
  rw [Ty.fits_signed] at hf
  have hfit : (⟨b + 1, true⟩ : Ty).Fits (x - 2 ^ (b + 1)) := Ty.fits_signed.2 ⟨by omega, by omega⟩
  exact ⟨hfit.conv_eq (CInt.ofInt_sub_pow (b + 1) x).symm, h0, h1⟩

theorem unsigned_of_not_fits (hs : 1 ≤ s) (hx : Near s x) (hf : ¬(ilTy s false).Fits x) :
    (ilTy s false).conv x = x + 2 ^ (8 * s) ∧ -2 ^ (8 * s) ≤ x ∧ x < 0 := by
  have hsg := hx.resolve_right hf
  obtain ⟨b, hb⟩ : ∃ b, 8 * s = b + 1 := ⟨8 * s - 1, by omega⟩
  rw [ilTy, hb] at hf hsg ⊢
  have hp : (2 : Int) ^ (b + 1) = 2 * 2 ^ b := by ring
  obtain ⟨h0, h1⟩ := Ty.fits_signed.1 hsg
  rw [Ty.fits_unsigned] at hf
  have hneg : x < 0 := by
    by_contra hn
    exact hf ⟨by omega, by omega⟩
  have hfit : (⟨b + 1, false⟩ : Ty).Fits (x + 2 ^ (b + 1)) := Ty.fits_unsigned.2 ⟨by omega, by omega⟩
  exact ⟨hfit.conv_eq (CInt.ofInt_add_pow (b + 1) x).symm, by omega, hneg⟩

theorem shiftRight_of_lt {b k : Nat} (h0 : 0 ≤ x) (h1 : x < 2 ^ b) (hk : b ≤ k) : x >>> k = 0 := by
  rw [Int.shiftRight_eq_div_pow]
  refine Int.ediv_eq_zero_of_lt h0 ?_
  have : (2 : Int) ^ b ≤ 2 ^ k := pow_le_pow_right₀ (by decide) hk
  push_cast
  omega

theorem shiftRight_of_neg {b k : Nat} (h0 : -2 ^ b ≤ x) (h1 : x < 0) (hk : b ≤ k) : x >>> k = -1 := by
  have hp : (2 : Int) ^ b ≤ 2 ^ k := pow_le_pow_right₀ (by decide) hk
  have hpos : (0 : Int) < 2 ^ k := by positivity
  rw [Int.shiftRight_eq_div_pow]
  push_cast
  refine (Int.ediv_emod_unique hpos (a := x) (r := x + 2 ^ k) (q := -1)).2 ⟨by ring, by omega, by omega⟩ |>.1

/-- **A part of a value read at a sign is C's part of it** when it lies within the value's bytes, or the value keeps its
meaning at that sign. -/
theorem part_iff {signed : Bool} (hs : 1 ≤ s) (hp : 1 ≤ p) (hx : Near s x) (hd : s < p * (n + 1) → s ≤ p * n ∨ n = 0) :
    (ilTy (min s p) signed).conv ((ilTy s signed).conv x >>> (n * (8 * p))) =
        (ilTy p signed).conv (x >>> (n * (8 * p))) ↔
      p * (n + 1) ≤ s ∨ (ilTy s signed).Fits x := by
  have hk : n * (8 * p) = 8 * (p * n) := by ring
  constructor
  · intro h
    by_contra hc
    obtain ⟨hlt, hf⟩ := not_or.1 hc
    rcases hd (by omega) with hout | rfl
    · cases signed with
      | true =>
        obtain ⟨hc, h0, h1⟩ := signed_of_not_fits hs hx hf
        rw [hc, shiftRight_of_neg (b := 8 * s) (by omega) (by omega) (by omega),
          shiftRight_of_lt h0 h1 (by omega), Ty.fits_zero] at h
        obtain ⟨b, hb⟩ : ∃ b, 8 * min s p = b + 1 := ⟨8 * min s p - 1, by omega⟩
        have hone : (ilTy (min s p) true).Fits (-1) := by
          have hpos : (0 : Int) < 2 ^ b := by positivity
          rw [ilTy, hb]
          exact Ty.fits_signed.2 ⟨by omega, by omega⟩
        rw [hone] at h
        cases h
      | false =>
        obtain ⟨hc, h0, h1⟩ := unsigned_of_not_fits hs hx hf
        rw [hc, shiftRight_of_lt (b := 8 * s) (by omega) (by omega) (by omega),
          shiftRight_of_neg h0 h1 (by omega), Ty.fits_zero] at h
        have hpos : (2 : Int) ^ 1 ≤ 2 ^ (8 * p) := pow_le_pow_right₀ (by decide) (by omega)
        have hones : (ilTy p false).Fits (-1 + 2 ^ (8 * p)) := Ty.fits_unsigned.2 ⟨by omega, by omega⟩
        rw [hones.conv_eq (CInt.ofInt_add_pow (8 * p) (-1)).symm] at h
        omega
    · have hsp : s < p := by omega
      rw [Nat.zero_mul, Int.shiftRight_zero, Int.shiftRight_zero, Nat.min_eq_left hsp.le, Ty.conv_conv] at h
      have hp2 : (2 : Int) ^ (8 * s) < 2 ^ (8 * p) := pow_lt_pow_right₀ (by decide) (by omega)
      have hpos : (0 : Int) < 2 ^ (8 * s) := by positivity
      cases signed with
      | true =>
        obtain ⟨hc, h0, h1⟩ := signed_of_not_fits hs hx hf
        have hwide : (ilTy p true).Fits x := (Ty.fits_unsigned.2 ⟨h0, h1⟩ : (ilTy s false).Fits x).mono
          (.inr ⟨show 8 * s < 8 * p by omega, rfl⟩)
        rw [hc, hwide] at h
        omega
      | false =>
        obtain ⟨hc, h0, h1⟩ := unsigned_of_not_fits hs hx hf
        have hwide : (ilTy p false).Fits (x + 2 ^ (8 * p)) := Ty.fits_unsigned.2 ⟨by omega, by omega⟩
        rw [hc, hwide.conv_eq (CInt.ofInt_add_pow (8 * p) x).symm] at h
        omega
  · rintro (hle | hf)
    · have hmin : min s p = p := by
        refine Nat.min_eq_right ?_
        nlinarith
      rw [hmin]
      refine Ty.conv_eq_iff.2 (CInt.ofInt_shiftRight_congr ?_)
      refine CInt.ofInt_mono ?_ ((ilTy s signed).ofInt_conv x)
      show n * (8 * p) + 8 * p ≤ 8 * s
      have hsucc : p * (n + 1) = p * n + p := Nat.mul_succ p n
      omega
    · rw [hf]
      have hsh := hf.shiftRight (n * (8 * p))
      rcases Nat.le_total p s with hps | hps
      · rw [Nat.min_eq_right hps]
      · rw [Nat.min_eq_left hps, hsh]
        exact (hsh.mono (u := ilTy p signed) (.inl ⟨Nat.mul_le_mul_left 8 hps, rfl⟩)).symm

end Part

section CPart

variable {src y : Val} {t : Ty} {b n : Nat} {mask : Val}

/-- What the text of `fGETBYTE` and its kin comes to. -/
theorem getPart_val (h : CMacro.getPart t b mask n src = some y) (htb : t.bits ≤ b) (hm : mask.val = (2 ^ b - 1 : Nat))
    (hmb : b ≤ mask.ty.promote.bits) :
    y.ty = t ∧ y.val = t.conv (src.val >>> (n * b)) ∧ n * b < src.ty.promote.bits := by
  simp only [CMacro.getPart, Val.shr, Option.map_eq_some_iff, Option.ite_none_right_eq_some, Option.some.injEq] at h
  obtain ⟨s, ⟨⟨-, hlt⟩, rfl⟩, rfl⟩ := h
  have hk : ((n : Int) * b).toNat = n * b := by rw [← Nat.cast_mul, Int.toNat_natCast]
  refine ⟨rfl, ?_, by exact_mod_cast hlt⟩
  have hT := Ty.bits_common src.ty.promote mask.ty
  have hbT : b ≤ (src.ty.promote.common mask.ty).bits := hT ▸ Nat.le_trans hmb (Nat.le_max_right _ _)
  have hshift : src.ty.promote.Fits (src.val >>> (n * b)) := src.fits.promote.shiftRight _
  refine Ty.conv_eq_iff.2 (CInt.ofInt_mono htb ?_)
  change BitVec.ofInt b ((src.ty.promote.common mask.ty).conv (Int.land
    ((src.ty.promote.common mask.ty).conv (src.ty.promote.conv (src.val >>> ((n : Int) * b).toNat)))
    ((src.ty.promote.common mask.ty).conv mask.val))) = _
  rw [hk, hshift, Ty.ofInt_conv_of_le hbT, CInt.ofInt_land, Ty.ofInt_conv_of_le hbT, Ty.ofInt_conv_of_le hbT,
    ← CInt.ofInt_land, hm, CInt.ofInt_land_mask]

end CPart

/-- The macros that read a part of their argument, a whole one for the casts: its bytes, its index and its sign. -/
def Macro1.reads : Macro1 → Option (Nat × Nat × Bool)
  | .fGetbyte n => some (1, n, true)
  | .fGetubyte n => some (1, n, false)
  | .fGethalf n => some (2, n, true)
  | .fGetuhalf n => some (2, n, false)
  | .fGetword n => some (4, n, true)
  | .fGetuword n => some (4, n, false)
  | .fCast4s => some (4, 0, true)
  | .fCast4u => some (4, 0, false)
  | .fCast8s => some (8, 0, true)
  | .fCast8u => some (8, 0, false)
  | _ => none

section Reads

variable {E : LiftEnv} {imms : ImmLetter → BitVec 32} {st : PhysState} {v w : IlVal} {x : Int} {m : Macro1} {e : Expr}
variable {p n : Nat} {signed : Bool}

theorem conv_extended {s : Nat} (z : Int) :
    (ilTy s signed).conv ((ilTy p signed).conv ((ilTy s false).conv z)) = (ilTy (min s p) signed).conv z := by
  rcases Nat.le_total p s with h | h
  · have hfit : (ilTy s signed).Fits ((ilTy p signed).conv ((ilTy s false).conv z)) :=
      (Ty.fits_conv _ _).mono (.inl ⟨Nat.mul_le_mul_left 8 h, rfl⟩)
    rw [hfit, Nat.min_eq_right h]
    exact Ty.conv_conv_of_le (t := ilTy p signed) (u := ilTy s false) (Nat.mul_le_mul_left 8 h) z
  · rw [Nat.min_eq_left h,
      Ty.conv_conv_of_le (t := ilTy s signed) (u := ilTy p signed) (Nat.mul_le_mul_left 8 h),
      Ty.conv_conv_of_le (t := ilTy s signed) (u := ilTy s false) (Nat.le_refl _)]

theorem conv_cast {s : Nat} :
    (ilTy p signed).conv ((ilTy s signed).conv x) = (ilTy (min s p) signed).conv ((ilTy s signed).conv x) := by
  rcases Nat.le_total p s with h | h
  · rw [Nat.min_eq_right h]
  · have hfit : (ilTy p signed).Fits ((ilTy s signed).conv x) :=
      (Ty.fits_conv _ _).mono (.inl ⟨Nat.mul_le_mul_left 8 h, rfl⟩)
    rw [Nat.min_eq_left h, hfit, Ty.conv_conv]

variable (signed) in
theorem cast_size (size : Nat) (v : IlVal) : (cast size signed v).size = size ∧
    (cast size signed v).signed = signed := by
  unfold cast
  split
  · exact ⟨rfl, rfl⟩
  · split
    · rename_i h
      exact ⟨h, rfl⟩
    · cases signed <;> exact ⟨rfl, rfl⟩

variable (signed) in
theorem extend_size (size : Nat) (v : IlVal) :
    (extend signed size v).size = size ∧ (extend signed size v).signed = signed := by
  cases signed <;> exact ⟨rfl, rfl⟩

variable (signed) in
theorem getPart_size (part n : Nat) (v : IlVal) :
    (getPart part n signed v).size = part ∧ (getPart part n signed v).signed = signed := by
  unfold getPart
  split
  · exact ⟨rfl, rfl⟩
  · cases signed <;> exact ⟨rfl, rfl⟩

theorem value_byte (h : v.Holds E imms st x) (h1 : 1 ≤ v.size) (hs : v.size ≤ 8) (hk : n * (8 * 1) < 256) :
    (getPart 1 n signed v).Holds E imms st ((getPart 1 n signed v).value E imms st) ∧
      (getPart 1 n signed v).value E imms st =
        (ilTy (min v.size 1) signed).conv ((ilTy v.size signed).conv x >>> (n * (8 * 1))) := by
  obtain ⟨hz, hsg⟩ := getPart_size signed 1 n v
  have hpart := holds_getPart h hs 1 n signed hk
  refine ⟨hpart.self (by omega), ?_⟩
  rw [hpart.value (by omega), hz, hsg, Nat.min_eq_right h1]
  exact Ty.conv_conv_of_le (t := ilTy 1 signed) (u := ilTy v.size false) (Nat.mul_le_mul_left 8 h1) _

theorem value_wide (h : v.Holds E imms st x) (hp : p ≤ 8) (hs : v.size ≤ 8) (hk : n * (8 * p) < 256) :
    (extend signed v.size (getPart p n signed v)).Holds E imms st
        ((extend signed v.size (getPart p n signed v)).value E imms st) ∧
      (extend signed v.size (getPart p n signed v)).value E imms st =
        (ilTy (min v.size p) signed).conv ((ilTy v.size signed).conv x >>> (n * (8 * p))) := by
  obtain ⟨hz, hsg⟩ := extend_size signed v.size (getPart p n signed v)
  have hpart := (getPart_size signed p n v).1
  have hext := holds_extend (holds_getPart h hs p n signed hk) (by rw [hpart]; exact hp) signed v.size
  refine ⟨hext.self (by omega), ?_⟩
  rw [hext.value (by omega), hz, hsg, hpart, conv_extended]

theorem value_cast (h : v.Holds E imms st x) (hp : p ≤ 8) (hs : v.size ≤ 8) :
    (cast p signed v).Holds E imms st ((cast p signed v).value E imms st) ∧
      (cast p signed v).value E imms st =
        (ilTy (min v.size p) signed).conv ((ilTy v.size signed).conv x >>> (0 * (8 * p))) := by
  obtain ⟨hz, hsg⟩ := cast_size signed p v
  have hcast := holds_cast h hs p signed
  refine ⟨hcast.self (by omega), ?_⟩
  rw [hcast.value (by omega), hz, hsg, conv_cast, Nat.zero_mul, Int.shiftRight_zero]

/-- **The value of a lifted part.** -/
theorem reads_value (hm : m.reads = some (p, n, signed)) (hw : m.transform e v = some w) (h : v.Holds E imms st x)
    (h1 : 1 ≤ v.size) (hs : v.size ≤ 8) (hk : n * (8 * p) < 256) : w.Holds E imms st (w.value E imms st) ∧
      w.value E imms st = (ilTy (min v.size p) signed).conv ((ilTy v.size signed).conv x >>> (n * (8 * p))) := by
  cases m with
  | fGetbyte | fGetubyte => cases hm; cases hw; exact value_byte h h1 hs hk
  | fGethalf | fGetuhalf => cases hm; cases hw; exact value_wide h (by decide) hs hk
  | fGetword | fGetuword =>
    cases hm
    simp only [Macro1.transform, Option.ite_none_right_eq_some] at hw
    cases hw.2
    exact value_wide h (by decide) hs hk
  | fCast4s | fCast4u => cases hm; cases hw; exact value_cast h (by decide) hs
  | fCast8s | fCast8u =>
    cases hm
    simp only [Macro1.transform, Option.ite_none_right_eq_some] at hw
    cases hw.2
    exact value_cast h (by decide) hs
  | f8bitsof | fLsbold | fLsbnew | fNewreg | fNewregSt | fImmext | fAbs | fByteswap => cases hm

theorem getPart_cval {t : Ty} {mask a y : Val} (h : CMacro.getPart t (8 * p) mask n a = some y) (ht : t.bits = 8 * p)
    (hm : mask.val = (2 ^ (8 * p) - 1 : Nat)) (hmb : 8 * p ≤ mask.ty.promote.bits) :
    y.val = t.conv (a.val >>> (n * (8 * p))) ∧ n * (8 * p) < max 1 a.ty.promote.bits :=
  have hv := getPart_val h ht.le hm hmb
  ⟨hv.2.1, Nat.lt_of_lt_of_le hv.2.2 (Nat.le_max_right _ _)⟩

theorem reads_cval {a y : Val} (hm : m.reads = some (p, n, signed)) (hy : m.ceval a = some y) :
    y.val = (ilTy p signed).conv (a.val >>> (n * (8 * p))) ∧ n * (8 * p) < max 1 a.ty.promote.bits := by
  have hword (h : (ilTy 4 signed).bits < (ilTy 8 signed).bits) (z : Int) :
      (ilTy 8 signed).conv ((ilTy 4 signed).conv z) = (ilTy 4 signed).conv z :=
    (Ty.fits_conv (ilTy 4 signed) z).mono (.inl ⟨h.le, rfl⟩)
  cases m with
  | fGetbyte | fGetubyte => cases hm; exact getPart_cval (p := 1) hy rfl rfl (by decide)
  | fGethalf | fGetuhalf => cases hm; exact getPart_cval (p := 2) hy rfl rfl (by decide)
  | fGetword | fGetuword =>
    cases hm
    obtain ⟨z, hz, rfl⟩ := Option.map_eq_some_iff.1 hy
    obtain ⟨h1, h2⟩ := getPart_cval (p := 4) hz rfl rfl (by decide)
    exact ⟨(congrArg _ h1).trans (hword (by decide) _), h2⟩
  | fCast4s | fCast4u | fCast8s | fCast8u =>
    cases hm
    cases hy
    rw [Nat.zero_mul, Int.shiftRight_zero]
    exact ⟨rfl, Nat.lt_of_lt_of_le Nat.zero_lt_one (Nat.le_max_left _ _)⟩
  | f8bitsof | fLsbold | fLsbnew | fNewreg | fNewregSt | fImmext | fAbs | fByteswap => cases hm

/-- **A lifted part keeps the value C gives it** when it lies within the bytes of its argument, or the argument keeps
its meaning at the part's sign. -/
theorem reads_iff {a y : Val} (hm : m.reads = some (p, n, signed)) (hw : m.transform e v = some w)
    (hy : m.ceval a = some y) (h : v.Holds E imms st a.val) (hn : Near v.size a.val)
      (h1 : v.size = 1 ∨ v.size = 4 ∨ v.size = 8)
    (hb : a.ty.promote.bits ≤ 64) :
    w.value E imms st = y.val ↔ p * (n + 1) ≤ v.size ∨ (ilTy v.size signed).Fits a.val := by
  obtain ⟨hval, hk⟩ := reads_cval hm hy
  rw [(reads_value hm hw h (by omega) (by omega) (by omega)).2, hval]
  have hp : (p = 1 ∨ p = 2 ∨ p = 4) ∨ n = 0 ∧ 1 ≤ p := by
    cases m with
    | fGetbyte | fGetubyte | fGethalf | fGetuhalf | fGetword | fGetuword => cases hm; exact .inl (by decide)
    | fCast4s | fCast4u | fCast8s | fCast8u => cases hm; exact .inr ⟨rfl, by decide⟩
    | f8bitsof | fLsbold | fLsbnew | fNewreg | fNewregSt | fImmext | fAbs | fByteswap => cases hm
  refine part_iff (by omega) (by omega) hn fun hlt => ?_
  rcases hp with (rfl | rfl | rfl) | ⟨rfl, -⟩ <;> omega

end Reads
end Hex
