/-
Doubles as the model of floating point unpacks them. Every double unpacks to
canonical form: the leading bit of the mantissa is set unless the exponent is
the least. A result in that form packs to a double that unpacks to it again,
or to infinity where the exponent has no room. The reading of a double's bits
that numbers are printed from is the same unpacking.
-/
import Mathlib
import Tween.Number.Double

namespace Tween.Double

open Float.Model Float.Model.UnpackedFloat

/-- The bounds of a canonical mantissa and exponent. -/
structure Bounds (m : Nat) (e : Int) : Prop where
  lt_two_pow : m < 2 ^ 53
  least_le : -1074 ≤ e
  leading : 2 ^ 52 ≤ m ∨ e = -1074

/-- The form in which two doubles can be compared, place by place. -/
def Canonical : UnpackedFloat → Prop
  | .finite _ m e _ => Bounds m e
  | _ => True

/-- The exponent has room in the format. -/
def HasRoom : UnpackedFloat → Prop
  | .finite _ _ e _ => e ≤ 971
  | _ => True

/-! ## The three fields -/

section Fields

variable (b : BitVec 64)

abbrev mantissaField : BitVec 52 := @unpackMantissa Format.binary64 b

abbrev exponentField : BitVec 11 := @unpackExponent Format.binary64 b

abbrev signField : BitVec 1 := @unpackSign Format.binary64 b

theorem toNat_mantissaField : (mantissaField b).toNat = b.toNat % 2 ^ 52 := by
  simp [mantissaField, unpackMantissa, BitVec.extractLsb]

theorem toNat_exponentField : (exponentField b).toNat = b.toNat / 2 ^ 52 % 2 ^ 11 := by
  simp [exponentField, unpackExponent, BitVec.extractLsb, Nat.shiftRight_eq_div_pow]

theorem toNat_signField : (signField b).toNat = b.toNat / 2 ^ 63 % 2 := by
  simp [signField, unpackSign, BitVec.extractLsb, Nat.shiftRight_eq_div_pow]

end Fields

/-- The number that three fields stand for. -/
def ofFields (s : Sign) (e : BitVec 11) (m : BitVec 52) : UnpackedFloat :=
  if e = -1#11 then
    if m = 0#52 then .infinity s else .notANumber
  else if e = 0#11 then
    if h : m = 0#52 then .zero s
    else .finite s m.toNat (-1074) (by simpa [BitVec.toNat_pos, BitVec.pos_iff_ne_zero])
  else .finite s (2 ^ 52 + m.toNat) (e.toNat - 1075) (by omega)

theorem unpack_eq_ofFields (b : BitVec 64) :
    UnpackedFloat.unpack Format.binary64 b =
      ofFields (Sign.ofBitVec (signField b)) (exponentField b) (mantissaField b) := by
  have himplied (m : BitVec 52) : (1#1 ++ m).toNat = 2 ^ 52 + m.toNat := by
    rw [BitVec.toNat_append, ← Nat.shiftLeft_add_eq_or_of_lt m.isLt]
    rfl
  have hbias : (Format.binary64.exponentBias : Int) + Format.binary64.mantissaBitsWithoutImplicit
      = 1075 := by decide
  simp only [UnpackedFloat.unpack, ofFields, mantissaField, exponentField, signField, hbias]
  by_cases htop : @unpackExponent Format.binary64 b = -1#11
  · rw [if_pos htop, if_pos htop]
  · rw [if_neg htop, if_neg htop]
    by_cases hzero : @unpackExponent Format.binary64 b = 0#11
    · rw [if_pos hzero, if_pos hzero]
      split
      · rfl
      · simp [hzero]
    · rw [if_neg hzero, if_neg hzero]
      simp [himplied]

/-! ## Canonical form -/

theorem ofFields_canonical (s : Sign) (e : BitVec 11) (m : BitVec 52) :
    Canonical (ofFields s e m) ∧ HasRoom (ofFields s e m) := by
  have hm := m.isLt
  have he := e.isLt
  unfold ofFields
  split
  · split <;> exact ⟨trivial, trivial⟩
  · rename_i htop
    have htop' : e.toNat ≠ 2 ^ 11 - 1 := fun h => htop (BitVec.eq_of_toNat_eq h)
    split
    · split
      · exact ⟨trivial, trivial⟩
      · exact ⟨⟨by omega, by omega, .inr rfl⟩, show (-1074 : Int) ≤ 971 by decide⟩
    · rename_i hzero
      have hzero' : e.toNat ≠ 0 := fun h => hzero (BitVec.eq_of_toNat_eq h)
      refine ⟨⟨by omega, by omega, .inl (by omega)⟩, ?_⟩
      show (e.toNat : Int) - 1075 ≤ 971
      omega

/-- The unpacked form of a double. -/
abbrev unpacked (x : Float) : UnpackedFloat := x.toModel.unpack

theorem unpacked_eq_ofFields (x : Float) :
    unpacked x = ofFields (Sign.ofBitVec (signField x.toBits.toBitVec))
      (exponentField x.toBits.toBitVec) (mantissaField x.toBits.toBitVec) :=
  unpack_eq_ofFields x.toBits.toBitVec

theorem unpacked_canonical (x : Float) : Canonical (unpacked x) := by
  rw [unpacked_eq_ofFields]
  exact (ofFields_canonical _ _ _).1

theorem unpacked_hasRoom (x : Float) : HasRoom (unpacked x) := by
  rw [unpacked_eq_ofFields]
  exact (ofFields_canonical _ _ _).2

/-! ## Packing -/

/-- What a result in canonical form is stored as: infinity, where the
exponent has no room. -/
def stored : UnpackedFloat → UnpackedFloat
  | .finite s m e h => if e ≤ 971 then .finite s m e h else .infinity s
  | u => u

theorem unpack_packComponents (s : Sign) (e : BitVec 11) (m : BitVec 52) :
    UnpackedFloat.unpack Format.binary64 (packComponents Format.binary64 s e m) =
      ofFields s e m := by
  rw [unpack_eq_ofFields, signField, exponentField, mantissaField, unpackSign_packComponents,
    unpackExponent_packComponents, unpackMantissa_packComponents, Sign.ofBitVec_toBitVec]

theorem ofFields_normal (s : Sign) {m : Nat} {e : Int} (h : 0 < m) (hm : 2 ^ 52 ≤ m)
    (hlt : m < 2 ^ 53) (hleast : -1074 ≤ e) (hroom : e ≤ 971) :
    ofFields s (BitVec.ofNat 11 (e + 1075).toNat) (BitVec.ofNat 52 m) = .finite s m e h := by
  have he : (BitVec.ofNat 11 (e + 1075).toNat).toNat = (e + 1075).toNat := by
    rw [BitVec.toNat_ofNat]
    omega
  have hf : (BitVec.ofNat 52 m).toNat = m - 2 ^ 52 := by
    rw [BitVec.toNat_ofNat]
    omega
  have htop : BitVec.ofNat 11 (e + 1075).toNat ≠ -1#11 := by
    intro heq
    have hval := congrArg BitVec.toNat heq
    rw [he] at hval
    have hmax : (-1#11).toNat = 2047 := rfl
    omega
  have hzero : BitVec.ofNat 11 (e + 1075).toNat ≠ 0#11 := by
    intro heq
    have hval := congrArg BitVec.toNat heq
    rw [he] at hval
    have hmin : (0#11).toNat = 0 := rfl
    omega
  rw [ofFields, if_neg htop, if_neg hzero]
  congr 1
  · omega
  · omega

theorem ofFields_subnormal (s : Sign) {m : Nat} (h : 0 < m) (hlt : m < 2 ^ 52) :
    ofFields s 0#11 (BitVec.ofNat 52 m) = .finite s m (-1074) h := by
  have hf : (BitVec.ofNat 52 m).toNat = m := by
    rw [BitVec.toNat_ofNat]
    omega
  have hzero : BitVec.ofNat 52 m ≠ 0#52 := by
    intro heq
    have hval := congrArg BitVec.toNat heq
    rw [hf] at hval
    exact absurd hval (Nat.pos_iff_ne_zero.1 h)
  rw [ofFields, if_neg (by decide), if_pos rfl, dif_neg hzero]
  congr 1

theorem unpack_pack {u : UnpackedFloat} (hu : Canonical u) :
    UnpackedFloat.unpack Format.binary64 (UnpackedFloat.pack Format.binary64 u) = stored u := by
  match u, hu with
  | .notANumber, _ => exact unpack_packComponents _ _ _
  | .infinity s, _ => exact unpack_packComponents _ _ _
  | .zero s, _ => exact unpack_packComponents _ _ _
  | .finite s m e hpos, ⟨hlt, hleast, hleading⟩ =>
    have hbiased : (e + Format.binary64.exponentBias +
        Format.binary64.mantissaBitsWithoutImplicit).toNat = (e + 1075).toNat := by
      rw [show (Format.binary64.exponentBias : Int) = 1023 by decide]
      congr 1
      simp only [Nat.cast_ofNat]
      omega
    have hbits : Format.binary64.mantissaBits = 53 := rfl
    simp only [UnpackedFloat.pack, stored, hbiased, hbits]
    -- With room for the exponent, the leading bit tells normal numbers from the others.
    by_cases hroom : e ≤ 971
    · rw [if_neg (by omega), if_pos hroom]
      by_cases hnormal : 2 ^ 52 ≤ m
      · have hlog : m.log2 = 52 := (Nat.log2_eq_iff hpos.ne').2 ⟨hnormal, hlt⟩
        rw [if_pos (by omega), unpack_packComponents]
        exact ofFields_normal s hpos hnormal hlt hleast hroom
      · have hlog : m.log2 < 52 := (Nat.log2_lt hpos.ne').2 (by omega)
        obtain rfl := hleading.resolve_left hnormal
        rw [if_neg (by omega), unpack_packComponents]
        exact ofFields_subnormal s hpos (by omega)
    · rw [if_pos (by omega), if_neg hroom]
      exact unpack_packComponents _ _ _

theorem unpacked_pack {u : UnpackedFloat} (hu : Canonical u) :
    unpacked (.ofModel (.pack u)) = stored u :=
  unpack_pack hu

theorem unpacked_pack_infinity (s : Sign) :
    unpacked (.ofModel (.pack (.infinity s))) = .infinity s :=
  @unpacked_pack (.infinity s) trivial

theorem stored_unpacked (x : Float) : stored (unpacked x) = unpacked x := by
  have hroom := unpacked_hasRoom x
  cases h : unpacked x with
  | finite s m e hpos =>
    rw [h] at hroom
    exact if_pos hroom
  | _ => rfl

theorem finite_cases {u : UnpackedFloat} (h : u.isFinite = true) :
    (∃ s, u = .zero s) ∨ ∃ s m e hpos, u = .finite s m e hpos := by
  cases u with
  | notANumber => exact absurd h Bool.false_ne_true
  | infinity => exact absurd h Bool.false_ne_true
  | zero s => exact .inl ⟨s, rfl⟩
  | finite s m e hpos => exact .inr ⟨s, m, e, hpos, rfl⟩

theorem stored_isNum {u : UnpackedFloat} (h : u.isFinite = true) : stored u ≠ .notANumber := by
  rcases finite_cases h with ⟨s, rfl⟩ | ⟨s, m, e, hpos, rfl⟩
  · intro hnan
    cases hnan
  · by_cases hroom : e ≤ 971
    · rw [stored, if_pos hroom]
      intro hnan
      cases hnan
    · rw [stored, if_neg hroom]
      intro hnan
      cases hnan

/-! ## Opposites -/

theorem neg_canonical {u : UnpackedFloat} (hu : Canonical u) : Canonical u.neg := by
  cases u <;> exact hu

theorem stored_neg (u : UnpackedFloat) : stored u.neg = (stored u).neg := by
  cases u with
  | finite s m e hpos =>
    by_cases hroom : e ≤ 971
    · rw [stored, if_pos hroom]
      exact if_pos hroom
    · rw [stored, if_neg hroom]
      exact if_neg hroom
  | _ => rfl

theorem unpacked_neg (x : Float) : unpacked (-x) = (unpacked x).neg := by
  have h := unpacked_pack (neg_canonical (unpacked_canonical x))
  rwa [stored_neg, stored_unpacked] at h

/-! ## The reading of the bits -/

def isNegative : Sign → Bool
  | .negative => true
  | .positive => false

/-- The exact number an unpacked double stands for. -/
def exact : UnpackedFloat → Exact
  | .notANumber => .nan
  | .infinity s => .infinite (isNegative s)
  | .zero s => .finite (isNegative s) 0 (-1074)
  | .finite s m e _ => .finite (isNegative s) m e

theorem isNegative_ofBitVec (b : BitVec 1) : isNegative (Sign.ofBitVec b) = (b.toNat == 1) := by
  have hlt := b.isLt
  unfold Sign.ofBitVec
  split
  · rename_i hzero
    rw [hzero]
    rfl
  · rename_i hzero
    have hne : b.toNat ≠ 0 := fun h => hzero (BitVec.eq_of_toNat_eq h)
    have hone : b.toNat = 1 := by omega
    rw [hone]
    rfl

/-- Reading a double's bits is unpacking it. -/
theorem ofDouble_eq (x : Float) : Exact.ofDouble x = exact (unpacked x) := by
  rw [unpacked_eq_ofFields]
  generalize hb : x.toBits.toBitVec = b
  have hbits : x.toBits.toNat = b.toNat := by
    rw [← hb]
    rfl
  have hsign := isNegative_ofBitVec (signField b)
  rw [toNat_signField] at hsign
  simp only [Exact.ofDouble, Exact.ofBits, Nat.pow_eq, hbits, ← toNat_exponentField,
    ← toNat_mantissaField, ← hsign]
  have htop : (exponentField b).toNat = 2 ^ 11 - 1 ↔ exponentField b = -1#11 :=
    ⟨fun h => BitVec.eq_of_toNat_eq h, fun h => by rw [h]; rfl⟩
  have hzero : (exponentField b).toNat = 0 ↔ exponentField b = 0#11 :=
    ⟨fun h => BitVec.eq_of_toNat_eq h, fun h => by rw [h]; rfl⟩
  have hwhole : (mantissaField b).toNat = 0 ↔ mantissaField b = 0#52 :=
    ⟨fun h => BitVec.eq_of_toNat_eq h, fun h => by rw [h]; rfl⟩
  unfold ofFields
  by_cases ht : exponentField b = -1#11
  · rw [if_pos (htop.2 ht), if_pos ht]
    by_cases hm : mantissaField b = 0#52
    · rw [if_pos (hwhole.2 hm), if_pos hm]
      rfl
    · rw [if_neg (mt hwhole.1 hm), if_neg hm]
      rfl
  · rw [if_neg (mt htop.1 ht), if_neg ht]
    by_cases hz : exponentField b = 0#11
    · rw [if_pos (hzero.2 hz), if_pos hz]
      by_cases hm : mantissaField b = 0#52
      · rw [dif_pos hm, hwhole.2 hm]
        rfl
      · rw [dif_neg hm]
        rfl
    · rw [if_neg (mt hzero.1 hz), if_neg hz]
      rfl

end Tween.Double
