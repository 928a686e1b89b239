import BinjaHexagon.MacroArith
/-!
# MacroNesting — nestings of the lifted value macros

A nesting stands for the integer C gives it when each of its macros does, and each does exactly under a condition on the
size and signedness inferred for its arguments and on their C values.
-/
namespace Hex

open Bytes (norm)
open CInt (Ty Val)

/-- `fGET*`, `fCAST*`, `fABS` and `fBYTESWAP`. -/
def Macro1.ofValue : Macro1 → Bool
  | .fGetbyte _ | .fGetubyte _ | .fGethalf _ | .fGetuhalf _ | .fGetword _ | .fGetuword _ => true
  | .fCast4s | .fCast4u | .fCast8s | .fCast8u | .fAbs | .fByteswap => true
  | .f8bitsof | .fLsbold | .fLsbnew | .fNewreg | .fNewregSt | .fImmext => false

/-- A register operand, an immediate or a literal. -/
def Operand.ofValue : Operand → Bool
  | .regOld _ _ | .regNew _ _ | .imm _ | .intcon _ => true
  | .regLr | .ea | .tmp _ => false

namespace Expr

/-- A nesting of the value macros over operands. -/
def isNesting : Expr → Bool
  | .operand o => o.ofValue
  | .call1 m e => m.ofValue && e.isNesting
  | .call2 _ a b => a.isNesting && b.isNesting
  | .neg _ | .not _ | .bitNot _ | .binop _ _ _ | .relop _ _ _ | .call0 _ => false

/-- A nesting and the nestings in it. -/
def parts : Expr → List Expr
  | .operand o => [.operand o]
  | .call1 m e => .call1 m e :: e.parts
  | .call2 m a b => .call2 m a b :: (a.parts ++ b.parts)
  | .neg _ | .not _ | .bitNot _ | .binop _ _ _ | .relop _ _ _ | .call0 _ => []

end Expr

/-- The size and signedness of a macro's result, those of its first argument given. -/
def Macro1.inferred (m : Macro1) (t : Nat × Bool) : Nat × Bool :=
  match m with
  | .fGetbyte _ => (1, true)
  | .fGetubyte _ => (1, false)
  | .fGethalf _ | .fGetword _ => (t.1, true)
  | .fGetuhalf _ | .fGetuword _ => (t.1, false)
  | .fCast4s => (4, true)
  | .fCast4u | .fByteswap => (4, false)
  | .fCast8s => (8, true)
  | .fCast8u => (8, false)
  | .fAbs | .f8bitsof | .fLsbold | .fLsbnew | .fNewreg | .fNewregSt | .fImmext => t

def Macro2.inferred (m : Macro2) (t : Nat × Bool) : Nat × Bool :=
  match m with
  | .fRotl4u | .fRotl8u => t
  | .fMax | .fMin => (t.1, true)

/-- The size and signedness of a nesting. -/
def Expr.inferred : Expr → Nat × Bool
  | .operand o => ((liftOperand o).size, true)
  | .call1 m e => m.inferred e.inferred
  | .call2 m a _ => m.inferred a.inferred
  | .neg _ | .not _ | .bitNot _ | .binop _ _ _ | .relop _ _ _ | .call0 _ => (0, false)

theorem Macro1.inferred_eq {m : Macro1} {e : Expr} {v w : IlVal} (hm : m.ofValue = true)
    (h : m.transform e v = some w) :
    m.inferred (v.size, v.signed) = (w.size, w.signed) := by
  have hpair {p : Nat} {s : Bool} {u : IlVal} (hu : u.size = p ∧ u.signed = s) : (p, s) = (u.size, u.signed) := by
    rw [hu.1, hu.2]
  cases m with
  | fGetbyte | fGetubyte => cases h; exact hpair (getPart_size _ _ _ _)
  | fGethalf | fGetuhalf => cases h; exact hpair (extend_size _ _ _)
  | fGetword | fGetuword =>
    simp only [transform, Option.ite_none_right_eq_some] at h
    cases h.2
    exact hpair (extend_size _ _ _)
  | fCast4s | fCast4u => cases h; exact hpair (cast_size _ _ _)
  | fCast8s | fCast8u =>
    simp only [transform, Option.ite_none_right_eq_some] at h
    cases h.2
    exact hpair (cast_size _ _ _)
  | fAbs =>
    simp only [transform] at h
    split at h
    · rename_i hsg
      cases h
      rw [hsg]
      rfl
    · cases h
      rfl
  | fByteswap =>
    simp only [transform, Option.ite_none_right_eq_some] at h
    cases h.2
    rfl
  | f8bitsof | fLsbold | fLsbnew | fNewreg | fNewregSt | fImmext => cases hm

theorem Macro2.inferred_eq {m : Macro2} {a b w : IlVal} (h : m.transform a b = some w) :
    m.inferred (a.size, a.signed) = (w.size, w.signed) := by
  cases m with
  | fRotl4u | fRotl8u =>
    simp only [transform, Option.ite_none_right_eq_some] at h
    obtain ⟨hs, h⟩ := h
    cases h
    rw [inferred, hs]
    rfl
  | fMax | fMin =>
    simp only [transform, Option.ite_none_right_eq_some] at h
    obtain ⟨-, h⟩ := h
    cases h
    cases a.signed <;> rfl

theorem Expr.inferred_eq {e : Expr} {w : IlVal} (hn : e.isNesting = true) (h : e.transform = some w) :
    e.inferred = (w.size, w.signed) := by
  induction e generalizing w with
  | operand o =>
    cases h
    cases o with
    | tmp n => cases hn
    | _ => rfl
  | call1 m e ih =>
    obtain ⟨v, hv, hw⟩ := Option.bind_eq_some_iff.1 h
    obtain ⟨hm, he⟩ := Bool.and_eq_true_iff.1 hn
    rw [inferred, ih he hv, Macro1.inferred_eq hm hw]
  | call2 m a b iha ihb =>
    obtain ⟨va, hva, h⟩ := Option.bind_eq_some_iff.1 h
    obtain ⟨vb, hvb, hw⟩ := Option.bind_eq_some_iff.1 h
    obtain ⟨ha, -⟩ := Bool.and_eq_true_iff.1 hn
    rw [inferred, iha ha hva, Macro2.inferred_eq hw]
  | neg e | not e | bitNot e | binop o a b | relop o a b | call0 m => cases hn

/-- The sizes and types that go together: of the types C promotes to, one without sign has the lifted size. -/
structure Typed (v : IlVal) (t : Ty) : Prop where
  size : v.size = 1 ∨ v.size = 4 ∨ v.size = 8
  bits : t.bits = 8 ∨ t.bits = 16 ∨ t.bits = 32 ∨ t.bits = 64
  unsigned : t.promote.signed = false → t.promote.bits = 8 * v.size

theorem promote_of_narrow {t : Ty} (h : t.bits < 32) : t.promote = ⟨32, true⟩ := if_pos h

theorem promote_of_wide {t : Ty} (h : ¬t.bits < 32) : t.promote = t := if_neg h

namespace Typed

variable {v a b : IlVal} {t u : Ty}

theorem one_le (h : Typed v t) : 1 ≤ v.size := by
  have := h.size
  omega

theorem le_eight (h : Typed v t) : v.size ≤ 8 := by
  have := h.size
  omega

theorem promoted (h : Typed v t) : t.promote.bits = 32 ∨ t.promote.bits = 64 := by
  have hb := h.bits
  by_cases hlt : t.bits < 32
  · rw [promote_of_narrow hlt]
    exact .inl rfl
  · rw [promote_of_wide hlt]
    omega

/-- A type narrower than `int` goes with every size. -/
theorem narrow (hs : v.size = 1 ∨ v.size = 4 ∨ v.size = 8) (h : t.bits = 8 ∨ t.bits = 16) : Typed v t :=
  ⟨hs, by omega, fun hsg => by rw [promote_of_narrow (by omega)] at hsg; cases hsg⟩

theorem same (hs : v.size = 4 ∨ v.size = 8) (h : t.bits = 8 * v.size) : Typed v t :=
  ⟨.inr hs, by omega, fun _ => by rw [promote_of_wide (by omega), h]⟩

/-- Where the common type has no sign, one of the two that has its bits has none. -/
theorem unsigned_common (h : (t.common u).signed = false) :
    t.promote.signed = false ∧ t.promote.bits = (t.common u).bits ∨ u.promote.signed = false ∧
        u.promote.bits = (t.common u).bits := by
  unfold Ty.common at h ⊢
  dsimp only at h ⊢
  split at h
  · rename_i hb
    rw [if_pos hb]
    rcases Bool.and_eq_false_iff.1 h with h | h
    · exact .inl ⟨h, rfl⟩
    · exact .inr ⟨h, hb.symm⟩
  · rename_i hb
    rw [if_neg hb]
    split at h
    · rename_i hlt
      rw [if_pos hlt]
      exact .inr ⟨h, rfl⟩
    · rename_i hlt
      rw [if_neg hlt]
      exact .inl ⟨h, rfl⟩

theorem common_signed (ha : Typed a t) (hb : Typed b u) (hsz : a.size = b.size) :
    (t.common u).signed = true ∨ (t.common u).bits = 8 * a.size := by
  cases h : (t.common u).signed with
  | true => exact .inl rfl
  | false =>
    refine .inr ?_
    rcases unsigned_common h with ⟨hs, hbits⟩ | ⟨hs, hbits⟩
    · rw [← hbits, ha.unsigned hs]
    · rw [← hbits, hb.unsigned hs, hsz]

theorem common_bits (ha : Typed a t) (hb : Typed b u) : (t.common u).bits = 32 ∨ (t.common u).bits = 64 := by
  have h1 := ha.promoted
  have h2 := hb.promoted
  rw [Ty.bits_common]
  omega

end Typed

section Steps

variable {E : LiftEnv} {imms : ImmLetter → BitVec 32} {st : PhysState} {v w va vb : IlVal} {a b y : Val} {e : Expr}

/-- What a nesting passes on to the macro around it. -/
structure Carries (E : LiftEnv) (imms : ImmLetter → BitVec 32) (st : PhysState) (v : IlVal) (x : Val) : Prop where
  holds : v.Holds E imms st x.val
  near : v.Near x.val
  small : x.ty.promote.bits < 8 * v.size → -2 ^ 31 < x.val

theorem Carries.ofValue (ht : Typed w y.ty) (hw : w.Holds E imms st (w.value E imms st)) (h : w.value E imms st = y.val)
    (hs : y.ty.promote.bits < 8 * w.size → -2 ^ 31 < y.val) : Carries E imms st w y := by
  rw [h] at hw
  refine ⟨hw, IlVal.near_of_fits ht.one_le ?_, hs⟩
  rw [← h, IlVal.value]
  exact Ty.fits_conv _ _

/-- A value of a type narrower than `int` is small. -/
theorem small_of_narrow (h : y.ty.bits = 8 ∨ y.ty.bits = 16) : -2 ^ 31 < y.val := by
  have hfit : (⟨17, true⟩ : Ty).Fits y.val := y.fits.mono (.inr ⟨show y.ty.bits < 17 by omega, rfl⟩)
  obtain ⟨hlo, -⟩ := Ty.fits_signed.1 hfit
  omega

/-- The type of a part is narrow, or has the size of what is lifted. -/
theorem reads_typed {m : Macro1} {p n : Nat} {signed : Bool} (hm : m.reads = some (p, n, signed))
    (hw : m.transform e v = some w) (hy : m.ceval a = some y) (ht : Typed v a.ty) :
    (w.size = 1 ∨ w.size = 4 ∨ w.size = 8) ∧ (y.ty.bits = 8 ∨ y.ty.bits = 16) ∨
      (w.size = 4 ∨ w.size = 8) ∧ y.ty.bits = 8 * w.size := by
  cases m with
  | fGetbyte | fGetubyte =>
    cases hw
    obtain ⟨z, -, rfl⟩ := Option.map_eq_some_iff.1 hy
    rw [(getPart_size _ _ _ _).1]
    exact .inl ⟨.inl rfl, .inl rfl⟩
  | fGethalf | fGetuhalf =>
    cases hw
    obtain ⟨z, -, rfl⟩ := Option.map_eq_some_iff.1 hy
    rw [(extend_size _ _ _).1]
    exact .inl ⟨ht.size, .inr rfl⟩
  | fGetword | fGetuword =>
    simp only [Macro1.transform, Option.ite_none_right_eq_some] at hw
    obtain ⟨hs, hw⟩ := hw
    cases hw
    obtain ⟨z, -, rfl⟩ := Option.map_eq_some_iff.1 hy
    rw [(extend_size _ _ _).1, hs]
    exact .inr ⟨.inr rfl, rfl⟩
  | fCast4s | fCast4u =>
    cases hw
    cases hy
    rw [(cast_size _ _ _).1]
    exact .inr ⟨.inl rfl, rfl⟩
  | fCast8s | fCast8u =>
    simp only [Macro1.transform, Option.ite_none_right_eq_some] at hw
    obtain ⟨-, hw⟩ := hw
    cases hw
    cases hy
    rw [(cast_size _ _ _).1]
    exact .inr ⟨.inr rfl, rfl⟩
  | f8bitsof | fLsbold | fLsbnew | fNewreg | fNewregSt | fImmext | fAbs | fByteswap => cases hm

variable (E imms st) in
theorem reads_step {m : Macro1} {p n : Nat} {signed : Bool} (hm : m.reads = some (p, n, signed))
    (hw : m.transform e v = some w) (hy : m.ceval a = some y) (ht : Typed v a.ty) :
    Typed w y.ty ∧ (Carries E imms st v a →
      (w.value E imms st = y.val ↔ p * (n + 1) ≤ v.size ∨ (ilTy v.size signed).Fits a.val) ∧
      (w.value E imms st = y.val → Carries E imms st w y)) := by
  have hk := (reads_cval hm hy).2
  have hbits := ht.promoted
  have hpair := reads_typed hm hw hy ht
  have htyped : Typed w y.ty := by
    rcases hpair with ⟨hs, hb⟩ | ⟨hs, hb⟩
    · exact .narrow hs hb
    · exact .same hs hb
  refine ⟨htyped, fun hc => ⟨reads_iff hm hw hy hc.holds (hc.near.near ht.one_le) ht.size (by omega), fun heq => ?_⟩⟩
  refine .ofValue htyped (reads_value hm hw hc.holds ht.one_le ht.le_eight (by omega)).1 heq fun hlt => ?_
  rcases hpair with ⟨-, hb⟩ | ⟨hs, hb⟩
  · exact small_of_narrow hb
  · rw [promote_of_wide (by omega)] at hlt
    omega

variable (E imms st) in
theorem abs_step (hw : Macro1.fAbs.transform e v = some w) (ht : Typed v a.ty) :
    Typed w (CMacro.fABS a).ty ∧ (Carries E imms st v a → Carries E imms st w (CMacro.fABS a)) := by
  have hty := (fABS_val a).1
  have hprom := ht.promoted
  have hsz : w.size = v.size := (Prod.ext_iff.1 (Macro1.inferred_eq rfl hw)).1.symm
  refine ⟨⟨hsz ▸ ht.size, hty ▸ by omega, fun hsg => ?_⟩, fun hc => ?_⟩
  · rw [hty, Ty.promote_promote] at hsg ⊢
    rw [hsz]
    exact ht.unsigned hsg
  · obtain ⟨hholds, -, hnear⟩ := fABS_value hw hc.holds hc.near ht.one_le ht.le_eight hprom hc.small
    refine ⟨hholds, hnear, fun hlt => ?_⟩
    rw [hty, Ty.promote_promote, hsz] at hlt
    have hmin := hc.small hlt
    rw [(fABS_val a).2]
    by_cases hneg : a.val < 0
    · rw [if_pos hneg]
      rcases conv_neg_cases (signed_of_neg a.fits hneg) (by omega) a.fits.promote with h | ⟨h, -⟩
      · omega
      · omega
    · rw [if_neg hneg]
      omega

variable (E imms st a) in
theorem byteswap_step (hw : Macro1.fByteswap.transform e v = some w) :
    Typed w (CMacro.fBYTESWAP a).ty ∧ (Carries E imms st v a →
      w.value E imms st = (CMacro.fBYTESWAP a).val ∧ Carries E imms st w (CMacro.fBYTESWAP a)) := by
  have hsz : w.size = 4 := (Prod.ext_iff.1 (Macro1.inferred_eq rfl hw)).1.symm
  have htyped : Typed w (CMacro.fBYTESWAP a).ty := .same (.inl hsz) (by rw [hsz]; rfl)
  refine ⟨htyped, fun hc => ?_⟩
  obtain ⟨hself, hval⟩ := fBYTESWAP_value hw hc.holds
  refine ⟨hval, .ofValue htyped hself hval fun hlt => ?_⟩
  rw [hsz] at hlt
  exact absurd hlt (show ¬(sizeu 4).promote.bits < 8 * 4 by decide)

theorem small_of_common {z : Int} (ht : Typed va a.ty) (ht' : Typed vb b.ty) (hsz : va.size = vb.size)
    (hc : Carries E imms st va a)
    (hc' : Carries E imms st vb b) (hz : z = (a.ty.common b.ty).conv a.val ∨ z = (a.ty.common b.ty).conv b.val)
    (hlt : (a.ty.common b.ty).bits < 8 * va.size) : -2 ^ 31 < z := by
  have hsg := (ht.common_signed ht' hsz).resolve_right (by omega)
  rw [a.fits.common_left hsg, b.fits.common_right hsg] at hz
  rw [Ty.bits_common] at hlt
  rcases hz with rfl | rfl
  · exact hc.small (by omega)
  · exact hc'.small (by omega)

theorem select_step {m : Macro2} (hm : m = .fMax ∨ m = .fMin) (hw : m.transform va vb = some w)
    (hy : m.ceval a b = some y)
    (ht : Typed va a.ty) (ht' : Typed vb b.ty) : Typed w y.ty ∧ (Carries E imms st va a → Carries E imms st vb b →
      (w.value E imms st = y.val ↔ m.keeps va.size va.signed a b) ∧
          (w.value E imms st = y.val → Carries E imms st w y)) := by
  have hsz : va.size = vb.size := by
    rcases hm with rfl | rfl <;> exact (Option.ite_none_right_eq_some.1 hw).1
  have hws : w.size = va.size := by
    rcases hm with rfl | rfl <;> exact (Prod.ext_iff.1 (Macro2.inferred_eq hw)).1.symm
  have hty : y.ty = a.ty.common b.ty := by
    rcases hm with rfl | rfl <;> cases hy <;> rfl
  have hbits := ht.common_bits ht'
  have hpick : y.val = (a.ty.common b.ty).conv a.val ∨ y.val = (a.ty.common b.ty).conv b.val := by
    rcases hm with rfl | rfl <;> cases hy
    · rw [fMAX_val, conv_max]
      exact max_choice _ _
    · rw [fMIN_val, conv_min]
      exact min_choice _ _
  have htyped : Typed w y.ty := by
    refine ⟨hws ▸ ht.size, by rw [hty]; omega, fun hsg => ?_⟩
    rw [hty, promote_of_wide (by omega)] at hsg ⊢
    rw [hws]
    exact (ht.common_signed ht' hsz).resolve_left (by rw [hsg]; decide)
  refine ⟨htyped, fun hc hc' => ?_⟩
  have hiff : w.Holds E imms st (w.value E imms st) ∧ (w.value E imms st = y.val ↔ m.keeps va.size va.signed a b) := by
    rcases hm with rfl | rfl <;> cases hy
    · exact fMAX_iff ht.le_eight (ht.common_signed ht' hsz) hw hc.holds hc'.holds ht.one_le
    · exact fMIN_iff ht.le_eight (ht.common_signed ht' hsz) hw hc.holds hc'.holds ht.one_le
  refine ⟨hiff.2, fun heq => .ofValue htyped hiff.1 heq fun hlt => ?_⟩
  rw [hty, promote_of_wide (by omega), hws] at hlt
  exact small_of_common ht ht' hsz hc hc' hpick hlt

/-- The type of a rotated number: no wider than the rotation it is the rotation's. -/
theorem rotl_ty {S : Nat} (hz : CMacro.fROTL (sizeu S) a b = some y) : y.ty = a.ty.common (sizeu S) := by
  unfold CMacro.fROTL at hz
  by_cases h0 : b.val = 0
  · rw [if_pos h0, Option.some.injEq] at hz
    rw [← hz]
    rfl
  · rw [if_neg h0] at hz
    simp only [Option.bind_eq_bind, Option.bind_eq_some_iff, Option.some.injEq] at hz
    obtain ⟨l, -, r, -, rfl⟩ := hz
    rfl

theorem rotl_step {m : Macro2} {S : Nat} (hm : m = .fRotl4u ∧ S = 4 ∨ m = .fRotl8u ∧ S = 8)
    (hw : m.transform va vb = some w)
    (hy : m.ceval a b = some y) (ht : Typed va a.ty) (ht' : Typed vb b.ty) :
    Typed w y.ty ∧ (Carries E imms st va a → Carries E imms st vb b →
      (w.value E imms st = y.val ↔ m.keeps va.size va.signed a b) ∧
          (w.value E imms st = y.val → Carries E imms st w y)) := by
  have hS : S = 4 ∨ S = 8 := by omega
  have hlift : va.size = S ∧ IlVal.binop .rotateLeft S va vb = w := by
    rcases hm with ⟨rfl, rfl⟩ | ⟨rfl, rfl⟩ <;>
      simpa only [Macro2.transform, Option.ite_none_right_eq_some, Option.some.injEq] using hw
  have hz : CMacro.fROTL (sizeu S) a b = some y := by
    rcases hm with ⟨rfl, rfl⟩ | ⟨rfl, rfl⟩ <;> exact hy
  have hkeeps : m.keeps va.size va.signed a b = rotates va.size va.signed a b := by
    rcases hm with ⟨rfl, rfl⟩ | ⟨rfl, rfl⟩ <;> rfl
  obtain ⟨hsz, rfl⟩ := hlift
  have hprom : (sizeu S).promote = sizeu S := promote_of_wide (show ¬8 * S < 32 by omega)
  have hty := rotl_ty hz
  have hbits := ht.promoted
  have hmax : (a.ty.common (sizeu S)).bits = max a.ty.promote.bits (8 * S) := by rw [Ty.bits_common, hprom]
  have htyped : Typed (.binop .rotateLeft S va vb) y.ty := by
    refine ⟨.inr hS, by rw [hty]; omega, fun hsg => ?_⟩
    rw [hty, promote_of_wide (by omega)] at hsg ⊢
    rcases Typed.unsigned_common hsg with ⟨hs, hb⟩ | ⟨-, hb⟩
    · rw [← hb, ht.unsigned hs, hsz]
      rfl
    · rw [← hb, hprom]
      rfl
  rw [hkeeps]
  refine ⟨htyped, fun hc hc' => ?_⟩
  obtain ⟨hself, hiff⟩ := rotl_iff hsz hS hc.holds hc'.holds ht'.one_le ht'.le_eight hz ht.bits
  refine ⟨hiff, fun heq => .ofValue htyped hself heq fun hlt => ?_⟩
  rw [hty, promote_of_wide (by omega)] at hlt
  change _ < 8 * S at hlt
  omega

end Steps

section Leaf

variable {E : LiftEnv} {imms : ImmLetter → BitVec 32} {st : PhysState}

theorem norm_join_le (f : Nat → BitVec 8) {s n : Nat} (hs : s ≤ n) (hn : n ≤ 8) :
    norm s (Bytes.join f n) = Bytes.join f s := by
  refine BitVec.eq_of_getLsbD_eq fun i _ => ?_
  rw [Bytes.getLsbD_norm, Bytes.getLsbD_join _ _ _ hn, Bytes.getLsbD_join _ _ _ (by omega)]
  by_cases h : i < 8 * s
  · simp [h, show i < 8 * n by omega]
  · simp [h]

/-- A shorter access reads the low bytes of a longer one. -/
theorem norm_get (r : LReg Nat) {s n : Nat} (hs : s ≤ n) (hn : n ≤ 8) : norm s (st.get n r) = st.get s r := by
  cases r with
  | hex r => exact norm_join_le _ hs hn
  | temp t => exact norm_join_le _ hs hn

theorem held_toNat (s : Nat) (v : BitVec 64) : held s (v.toNat : Int) = norm s v := by
  rw [← norm_ofInt, BitVec.ofInt_natCast, BitVec.ofNat_toNat, BitVec.setWidth_eq]

theorem regSize_le (t : RegType) (id : RegId) : regSize t id ≤ regBytes t id ∧ (regBytes t id = 1 ∨ regBytes t id = 4 ∨
    regBytes t id = 8) ∧ (regSize t id = 1 ∨ regSize t id = 4 ∨ regSize t id = 8) := by
  unfold regSize regBytes
  by_cases hP : t = .P
  · rw [if_pos hP, if_pos hP]
    decide
  · rw [if_neg hP, if_neg hP, RegId.matchesPair]
    cases id.pair
    · exact ⟨Nat.le_refl 4, .inr (.inl rfl), .inr (.inl rfl)⟩
    · split
      · exact ⟨Nat.le_refl 8, .inr (.inr rfl), .inr (.inr rfl)⟩
      · exact ⟨show 4 ≤ 8 by decide, .inr (.inr rfl), .inr (.inl rfl)⟩

/-- A register operand holds the low bytes of its C value. -/
theorem holds_register (t : RegType) (id : RegId) (r : RegName) :
    (IlVal.register (regSize t id) r).Holds E imms st (cRegister E st t id r).val := by
  obtain ⟨hle, hb, -⟩ := regSize_le t id
  change st.get (regSize t id) (E.reg r) = held (regSize t id) ((⟨8 * regBytes t id, t != .P⟩ : Ty).conv _)
  rw [held_congr (Ty.ofInt_conv_of_le (Nat.mul_le_mul_left 8 hle) _), held_toNat, norm_get _ hle (by omega)]

theorem promote_register (t : RegType) (id : RegId) : (⟨8 * regBytes t id, t != .P⟩ : Ty).promote.signed = true ∧
    8 * regBytes t id ≤ (⟨8 * regBytes t id, t != .P⟩ : Ty).promote.bits := by
  obtain ⟨-, hb, -⟩ := regSize_le t id
  by_cases hP : t = .P
  · subst hP
    exact ⟨rfl, show 8 * 1 ≤ 32 by decide⟩
  · rw [bne_iff_ne.2 hP]
    refine ⟨Ty.signed_promote rfl, ?_⟩
    by_cases h : 8 * regBytes t id < 32
    · rw [promote_of_narrow h]
      exact h.le
    · rw [promote_of_wide h]

theorem typed_register (t : RegType) (id : RegId) (r : RegName) :
    Typed (.register (regSize t id) r) (cRegister E st t id r).ty := by
  obtain ⟨-, hb, hs⟩ := regSize_le t id
  have hty : (cRegister E st t id r).ty.bits = 8 * regBytes t id := rfl
  refine ⟨hs, by omega, fun h => ?_⟩
  cases h.symm.trans (promote_register t id).1

theorem register_bits (t : RegType) (id : RegId) (r : RegName) :
    8 * regSize t id ≤ (cRegister E st t id r).ty.promote.bits :=
  Nat.le_trans (Nat.mul_le_mul_left 8 (regSize_le t id).1) (promote_register t id).2

theorem operand_step {o : Operand} {x : Val} (ho : o.ofValue = true) (hx : cOperand E imms st o = some x) :
    Typed (liftOperand o) x.ty ∧ (liftOperand o).Holds E imms st x.val ∧
      8 * (liftOperand o).size ≤ x.ty.promote.bits ∧ (liftOperand o).signed = true := by
  cases o with
  | regOld t id =>
    cases hx
    exact ⟨typed_register t id _, holds_register t id _, register_bits t id _, rfl⟩
  | regNew t id =>
    cases hx
    exact ⟨typed_register t id _, holds_register t id _, register_bits t id _, rfl⟩
  | imm l =>
    cases hx
    refine ⟨.same (.inl rfl) rfl, ?_, Nat.le_refl 32, rfl⟩
    change norm 4 (BitVec.ofInt 64 (imms l).toInt) = held 4 ((sizes 4).conv (imms l).toInt)
    rw [norm_ofInt, held_conv]
  | intcon n =>
    obtain ⟨-, h⟩ := Option.ite_none_right_eq_some.1 hx
    cases h
    refine ⟨.same (.inl rfl) rfl, (holds_const E imms st 4 n).congr ?_, Nat.le_refl 32, rfl⟩
    exact ((⟨32, true⟩ : Ty).ofInt_conv n).symm
  | regLr | ea | tmp n => cases ho

end Leaf

section Nesting

variable (E : LiftEnv) (imms : ImmLetter → BitVec 32) (st : PhysState)

/-- What a nesting is to stand for: the integer of C, for `fABS` modulo the size of its operand. -/
def Expr.target (e : Expr) (v : IlVal) (x : Int) : Int :=
  match e with
  | .call1 m _ => if m = .fAbs then (ilTy v.size v.signed).conv x else x
  | .operand _ | .call2 _ _ _ | .neg _ | .not _ | .bitNot _ | .binop _ _ _ | .relop _ _ _ | .call0 _ => x

/-- The lifted expression stands for the integer C gives. -/
def Expr.Denotes (e : Expr) : Prop :=
  ∃ v x, e.transform = some v ∧ e.ceval (cOperand E imms st) = some x ∧ v.value E imms st = e.target v x.val

/-- When a part of an argument keeps its value: it lies within the lifted size, or the argument is a number of that size
at the part's sign. -/
def Macro1.keeps (m : Macro1) (size : Nat) (a : Val) : Prop :=
  match m.reads with
  | some (p, n, signed) => p * (n + 1) ≤ size ∨ (ilTy size signed).Fits a.val
  | none => True

/-- The condition a macro of a nesting has to meet: it is one on the types inferred for its arguments and on the C
values of these. -/
def Expr.Keeps : Expr → Prop
  | .operand o => ∀ x ∈ cOperand E imms st o, (ilTy (liftOperand o).size true).Fits x.val
  | .call1 m e => ∀ x ∈ e.ceval (cOperand E imms st), m.keeps e.inferred.1 x
  | .call2 m a b => ∀ x ∈ a.ceval (cOperand E imms st), ∀ y ∈ b.ceval (cOperand E imms st),
      m.keeps a.inferred.1 a.inferred.2 x y
  | .neg _ | .not _ | .bitNot _ | .binop _ _ _ | .relop _ _ _ | .call0 _ => True

variable {E imms st}

theorem denotes_of_eq {e : Expr} {v : IlVal} {x : Val} (hv : e.transform = some v)
    (hx : e.ceval (cOperand E imms st) = some x) :
    e.Denotes E imms st ↔ v.value E imms st = e.target v x.val := by
  constructor
  · rintro ⟨v', x', hv', hx', h⟩
    cases hv.symm.trans hv'
    cases hx.symm.trans hx'
    exact h
  · exact fun h => ⟨v, x, hv, hx, h⟩

theorem forall_mem_some {α : Type} {o : Option α} {a : α} {P : α → Prop} (h : o = some a) : (∀ b ∈ o, P b) ↔ P a := by
  constructor
  · exact fun hall => hall a h
  · intro ha b hb
    cases h.symm.trans hb
    exact ha

theorem denotes_operand {o : Operand} {x : Val} (ho : o.ofValue = true) (hx : cOperand E imms st o = some x) :
    ((Expr.operand o).Denotes E imms st ↔ (Expr.operand o).Keeps E imms st) ∧
      ((Expr.operand o).Denotes E imms st → Carries E imms st (liftOperand o) x) := by
  obtain ⟨ht, hholds, hbits, hsg⟩ := operand_step ho hx
  have hval := hholds.value ht.le_eight
  rw [hsg] at hval
  rw [denotes_of_eq (e := .operand o) rfl hx, Expr.Keeps, forall_mem_some hx, Expr.target, hval]
  exact ⟨Iff.rfl, fun h => .ofValue ht (hholds.self ht.le_eight) (hval.trans h) fun hlt => absurd hlt (by omega)⟩

theorem denotes_call1 {m : Macro1} {e : Expr} {v w : IlVal} {a y : Val} (hm : m.ofValue = true)
    (hn : e.isNesting = true)
    (hv : e.transform = some v) (hw : m.transform e v = some w) (ha : e.ceval (cOperand E imms st) = some a)
    (hy : m.ceval a = some y) (ht : Typed v a.ty) : Typed w y.ty ∧ (Carries E imms st v a →
      ((Expr.call1 m e).Denotes E imms st ↔ (Expr.call1 m e).Keeps E imms st) ∧
        ((Expr.call1 m e).Denotes E imms st → Carries E imms st w y)) := by
  have htr : (Expr.call1 m e).transform = some w := Option.bind_eq_some_iff.2 ⟨v, hv, hw⟩
  have hce : (Expr.call1 m e).ceval (cOperand E imms st) = some y := Option.bind_eq_some_iff.2 ⟨a, ha, hy⟩
  rw [denotes_of_eq htr hce, Expr.Keeps, forall_mem_some ha, Expr.inferred_eq hn hv, Expr.target]
  cases hr : m.reads with
  | some r =>
    obtain ⟨p, n, signed⟩ := r
    have hne : m ≠ .fAbs := by
      rintro rfl
      cases hr
    obtain ⟨htyped, hstep⟩ := reads_step E imms st hr hw hy ht
    rw [if_neg hne, Macro1.keeps, hr]
    exact ⟨htyped, hstep⟩
  | none =>
    have hkeep : m.keeps v.size a := by
      rw [Macro1.keeps, hr]
      trivial
    cases m with
    | fAbs =>
      cases hy
      obtain ⟨htyped, hstep⟩ := abs_step E imms st hw ht
      refine ⟨htyped, fun hc => ?_⟩
      have hc' := hstep hc
      rw [if_pos rfl]
      exact ⟨iff_of_true (hc'.holds.value htyped.le_eight) hkeep, fun _ => hc'⟩
    | fByteswap =>
      cases hy
      obtain ⟨htyped, hstep⟩ := byteswap_step E imms st a hw
      refine ⟨htyped, fun hc => ?_⟩
      obtain ⟨hval, hc'⟩ := hstep hc
      rw [if_neg (by decide)]
      exact ⟨iff_of_true hval hkeep, fun _ => hc'⟩
    | fGetbyte | fGetubyte | fGethalf | fGetuhalf | fGetword | fGetuword | fCast4s | fCast4u | fCast8s | fCast8u =>
        cases hr
    | f8bitsof | fLsbold | fLsbnew | fNewreg | fNewregSt | fImmext => cases hm

theorem denotes_call2 {m : Macro2} {e e' : Expr} {va vb w : IlVal} {a b y : Val} (hn : e.isNesting = true)
    (hva : e.transform = some va) (hvb : e'.transform = some vb) (hw : m.transform va vb = some w)
    (ha : e.ceval (cOperand E imms st) = some a) (hb : e'.ceval (cOperand E imms st) = some b)
      (hy : m.ceval a b = some y)
    (ht : Typed va a.ty) (ht' : Typed vb b.ty) :
    Typed w y.ty ∧ (Carries E imms st va a → Carries E imms st vb b →
      ((Expr.call2 m e e').Denotes E imms st ↔ (Expr.call2 m e e').Keeps E imms st) ∧
        ((Expr.call2 m e e').Denotes E imms st → Carries E imms st w y)) := by
  have htr : (Expr.call2 m e e').transform = some w :=
    Option.bind_eq_some_iff.2 ⟨va, hva, Option.bind_eq_some_iff.2 ⟨vb, hvb, hw⟩⟩
  have hce : (Expr.call2 m e e').ceval (cOperand E imms st) = some y :=
    Option.bind_eq_some_iff.2 ⟨a, ha, Option.bind_eq_some_iff.2 ⟨b, hb, hy⟩⟩
  rw [denotes_of_eq htr hce, Expr.Keeps, forall_mem_some ha, forall_mem_some hb, Expr.inferred_eq hn hva, Expr.target]
  cases m with
  | fMax => exact select_step (.inl rfl) hw hy ht ht'
  | fMin => exact select_step (.inr rfl) hw hy ht ht'
  | fRotl4u => exact rotl_step (.inl ⟨rfl, rfl⟩) hw hy ht ht'
  | fRotl8u => exact rotl_step (.inr ⟨rfl, rfl⟩) hw hy ht ht'

/-- What the induction carries: the types, the condition of every part, and the value where every part has its own. -/
theorem nesting_iff {e : Expr} {v : IlVal} {x : Val} (hn : e.isNesting = true) (hv : e.transform = some v)
    (hx : e.ceval (cOperand E imms st) = some x) : Typed v x.ty ∧
      ((∀ d ∈ e.parts, d.Denotes E imms st) ↔ ∀ d ∈ e.parts, d.Keeps E imms st) ∧
      ((∀ d ∈ e.parts, d.Denotes E imms st) → Carries E imms st v x) := by
  induction e generalizing v x with
  | operand o =>
    cases hv
    have hop := denotes_operand hn hx
    simp only [Expr.parts, List.forall_mem_singleton]
    exact ⟨(operand_step hn hx).1, hop⟩
  | call1 m e ih =>
    obtain ⟨w, hw, hv⟩ := Option.bind_eq_some_iff.1 hv
    obtain ⟨a, ha, hx⟩ := Option.bind_eq_some_iff.1 hx
    obtain ⟨hm, he⟩ := Bool.and_eq_true_iff.1 hn
    obtain ⟨ht, hiff, hcar⟩ := ih he hw ha
    obtain ⟨htyped, hstep⟩ := denotes_call1 hm he hw hv ha hx ht
    simp only [Expr.parts, List.forall_mem_cons]
    rw [← hiff]
    exact ⟨htyped, and_congr_left fun h => (hstep (hcar h)).1, fun h => (hstep (hcar h.2)).2 h.1⟩
  | call2 m e e' ih ih' =>
    obtain ⟨va, hva, hv⟩ := Option.bind_eq_some_iff.1 hv
    obtain ⟨vb, hvb, hv⟩ := Option.bind_eq_some_iff.1 hv
    obtain ⟨a, ha, hx⟩ := Option.bind_eq_some_iff.1 hx
    obtain ⟨b, hb, hx⟩ := Option.bind_eq_some_iff.1 hx
    obtain ⟨he, he'⟩ := Bool.and_eq_true_iff.1 hn
    obtain ⟨ht, hiff, hcar⟩ := ih he hva ha
    obtain ⟨ht', hiff', hcar'⟩ := ih' he' hvb hb
    obtain ⟨htyped, hstep⟩ := denotes_call2 he hva hvb hv ha hb hx ht ht'
    simp only [Expr.parts, List.forall_mem_cons, List.forall_mem_append]
    rw [← hiff, ← hiff']
    exact ⟨htyped, and_congr_left fun h => (hstep (hcar h.1) (hcar' h.2)).1,
      fun h => (hstep (hcar h.2.1) (hcar' h.2.2)).2 h.1⟩
  | neg e | not e | bitNot e | binop o a b | relop o a b | call0 m => cases hn

end Nesting

end Hex
