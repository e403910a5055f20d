import Comet.SpaceBitmap.Basic

/-!
# The object header and its bit fields

`HeapObjectHeader` of `api.rs` packs an object's vtable pointer, size and
forwarding bit into its `u64` `value`, and its mark bit into the `u32`
`padding`, through the `BitFieldTrait<SHIFT, SIZE>` impls of `utils.rs`.

* `BitField` is an impl of `BitFieldTrait`, with `MASK`, `encode`, `update` and
  `decode`.  `testBit_MASK`, `testBit_encode`, `testBit_update` and
  `testBit_decode` give their bits, and `decode_update_self` and
  `decode_update_of_disjoint` are the two ways one field reads another's update.
  `bitField_laws` collects the laws of a field: it reads back what was written,
  a second update overwrites the first, writing back what was read changes
  nothing, and a disjoint field is untouched.
* The impls the header uses: `VTableBitField` (bits `0..58`), `SizeBitField`
  (bits `0..13`), `ForwardedBit` (bit `3`), `MarkedBitField` (bit `48`) and
  `MarkBit` (bit `14`).  The first three overlap.
* `HeapObjectHeader` and its accessors.  What they do: `vtable_setVtable` and
  `size_setSize` read a field back; `setVtable_accessors` gives what every
  accessor, `is_allocated` included, reads after `set_vtable`: the size and
  the forwarding bit come from the pointer; `setForwarded_fields` shows the forwarding
  bit read back as bit 3 of the vtable; `setMarkedBit_eq` shows that
  `set_marked_bit` writes bit 48 of a `u32` and so changes nothing;
  `markedBit_unmark` clears bit 14, the one `marked_bit` reads, and
  `setMarkedBit_never_marks` puts the two together: no run of
  `set_marked_bit` calls makes an unmarked header read marked.
* `header_fields_overlap` runs the sequence of scenario S5 and reads the
  fields back: the size is written into the low bits of the vtable.
-/

namespace Comet

/-! ## `BitFieldTrait` -/

/-- An impl of `BitFieldTrait<SHIFT, SIZE>`: a field of `SIZE` bits from bit
`SHIFT` of a `u64`. -/
structure BitField where
  SHIFT : Nat
  SIZE : Nat

namespace BitField

/-- `MASK = ((1 << SHIFT) << SIZE) - (1 << SHIFT)`. -/
def MASK (f : BitField) : UInt64 :=
  ((1 <<< f.SHIFT.toUInt64) <<< f.SIZE.toUInt64) - (1 <<< f.SHIFT.toUInt64)

/-- `encode(value) = value.wrapping_shl(SHIFT)`. -/
def encode (f : BitField) (value : UInt64) : UInt64 := value <<< f.SHIFT.toUInt64

/-- `update(previous, value) = (previous & !MASK) | encode(value)`. -/
def update (f : BitField) (previous value : UInt64) : UInt64 :=
  (previous &&& ~~~f.MASK) ||| f.encode value

/-- `decode(value) = (value & MASK).wrapping_shr(SHIFT)`. -/
def decode (f : BitField) (value : UInt64) : UInt64 := (value &&& f.MASK) >>> f.SHIFT.toUInt64

theorem toNat_shiftLeft (x : UInt64) (k : Nat) :
    (x <<< k.toUInt64).toNat = x.toNat * 2 ^ (k % 64) % 2 ^ 64 := by
  show (x.toBitVec <<< (UInt64.mod k.toUInt64 64).toBitVec).toNat = _
  rw [BitVec.shiftLeft_eq', BitVec.toNat_shiftLeft, UInt64.shiftAmount_toNat, Nat.shiftLeft_eq]
  rfl

section Bits

variable (f : BitField) (hf : f.SHIFT + f.SIZE < 64)
include hf

/-- The mask holds the bits `SHIFT .. SHIFT + SIZE`. -/
theorem testBit_MASK (i : Nat) :
    f.MASK.testBit i = (decide (f.SHIFT ≤ i) && decide (i < f.SHIFT + f.SIZE)) := by
  have hpow : ∀ k < 64, 2 ^ k < 2 ^ 64 := fun k hk => Nat.pow_lt_pow_right (by decide) hk
  have h₁ : ((1 : UInt64) <<< f.SHIFT.toUInt64).toNat = 2 ^ f.SHIFT := by
    rw [toNat_shiftLeft, Nat.mod_eq_of_lt (by omega : f.SHIFT < 64)]
    exact (Nat.one_mul _).symm ▸ Nat.mod_eq_of_lt (hpow _ (by omega))
  have h₂ : (((1 : UInt64) <<< f.SHIFT.toUInt64) <<< f.SIZE.toUInt64).toNat =
      2 ^ (f.SHIFT + f.SIZE) := by
    rw [toNat_shiftLeft, h₁, Nat.mod_eq_of_lt (by omega : f.SIZE < 64), ← Nat.pow_add]
    exact Nat.mod_eq_of_lt (hpow _ hf)
  have hle : 2 ^ f.SHIFT ≤ 2 ^ (f.SHIFT + f.SIZE) := Nat.pow_le_pow_right (by decide) (by omega)
  have hmask : f.MASK.toNat = (2 ^ f.SIZE - 1) <<< f.SHIFT := by
    show (_ - _ : BitVec 64).toNat = _
    rw [BitVec.toNat_sub]
    show (2 ^ 64 - ((1 : UInt64) <<< f.SHIFT.toUInt64).toNat +
      (((1 : UInt64) <<< f.SHIFT.toUInt64) <<< f.SIZE.toUInt64).toNat) % 2 ^ 64 = _
    have h64 := hpow _ hf
    have hswap : 2 ^ 64 - 2 ^ f.SHIFT + 2 ^ (f.SHIFT + f.SIZE) =
        (2 ^ (f.SHIFT + f.SIZE) - 2 ^ f.SHIFT) + 2 ^ 64 := by
      generalize 2 ^ f.SHIFT = a at *
      generalize 2 ^ (f.SHIFT + f.SIZE) = b at *
      omega
    rw [h₁, h₂, Nat.shiftLeft_eq, Nat.sub_mul, Nat.one_mul, ← Nat.pow_add, Nat.add_comm f.SIZE,
      hswap, Nat.add_mod_right, Nat.mod_eq_of_lt (Nat.lt_of_le_of_lt (Nat.sub_le _ _) h64)]
  show f.MASK.toNat.testBit i = _
  rw [hmask, Nat.testBit_shiftLeft, Nat.testBit_two_pow_sub_one]
  by_cases h : f.SHIFT ≤ i
  · simp only [ge_iff_le, h, decide_True, Bool.true_and]
    exact decide_eq_decide.2 (by omega)
  · simp [h]

/-- `encode` moves the value up by `SHIFT` bits. -/
theorem testBit_encode (x : UInt64) (i : Nat) :
    (f.encode x).testBit i = (decide (i < 64) && decide (f.SHIFT ≤ i) && x.testBit (i - f.SHIFT)) := by
  rw [encode, UInt64.testBit_shiftLeft, Nat.mod_eq_of_lt (by omega)]

/-- `update` keeps the bits outside the field and writes the encoded value. -/
theorem testBit_update (p x : UInt64) (i : Nat) :
    (f.update p x).testBit i =
      ((p.testBit i && !(decide (f.SHIFT ≤ i) && decide (i < f.SHIFT + f.SIZE))) ||
        (decide (i < 64) && decide (f.SHIFT ≤ i) && x.testBit (i - f.SHIFT))) := by
  rw [update, UInt64.testBit_or, UInt64.testBit_and, UInt64.testBit_not, testBit_MASK f hf,
    testBit_encode f hf]
  by_cases hi : i < 64
  · simp [hi]
  · simp [hi, UInt64.testBit_of_ge p (Nat.le_of_not_lt hi)]

/-- `decode` reads the field's bits down to bit `0`. -/
theorem testBit_decode (v : UInt64) (i : Nat) :
    (f.decode v).testBit i = (decide (i < f.SIZE) && v.testBit (f.SHIFT + i)) := by
  rw [decode, UInt64.testBit_shiftRight, Nat.mod_eq_of_lt (by omega), UInt64.testBit_and,
    testBit_MASK f hf]
  by_cases hi : i < f.SIZE
  · simp [hi, Bool.and_comm]
  · simp [hi]

/-- `decode` as arithmetic: the field's bits, shifted down to bit `0`. -/
theorem toNat_decode (v : UInt64) : (f.decode v).toNat = v.toNat / 2 ^ f.SHIFT % 2 ^ f.SIZE := by
  apply Nat.eq_of_testBit_eq
  intro i
  rw [Nat.testBit_mod_two_pow, ← Nat.shiftRight_eq_div_pow, Nat.testBit_shiftRight]
  exact testBit_decode f hf v i

/-- A value that fits the field reads back from its update. -/
theorem decode_update_self (p x : UInt64) (hx : x.toNat < 2 ^ f.SIZE) :
    f.decode (f.update p x) = x := by
  refine UInt64.ext_testBit fun i hi => ?_
  rw [testBit_decode f hf, testBit_update f hf]
  by_cases hs : i < f.SIZE
  · simp [hs, show f.SHIFT + i < 64 by omega]
  · have : x.testBit i = false :=
      Nat.testBit_lt_two_pow (Nat.lt_of_lt_of_le hx (Nat.pow_le_pow_right (by decide) (by omega)))
    simp [hs, this]

/-- A field reads the same after an update of a field that does not overlap
it, when the value written fits its field. -/
theorem decode_update_of_disjoint (g : BitField) (hg : g.SHIFT + g.SIZE < 64)
    (hd : f.SHIFT + f.SIZE ≤ g.SHIFT ∨ g.SHIFT + g.SIZE ≤ f.SHIFT) (p x : UInt64)
    (hx : x.toNat < 2 ^ g.SIZE) :
    f.decode (g.update p x) = f.decode p := by
  refine UInt64.ext_testBit fun i _ => ?_
  rw [testBit_decode f hf, testBit_decode f hf, testBit_update g hg]
  by_cases hs : i < f.SIZE
  · have hout : ¬(g.SHIFT ≤ f.SHIFT + i ∧ f.SHIFT + i < g.SHIFT + g.SIZE) := by omega
    have hx' : decide (g.SHIFT ≤ f.SHIFT + i) = true → x.testBit (f.SHIFT + i - g.SHIFT) = false :=
      fun hle => Nat.testBit_lt_two_pow (Nat.lt_of_lt_of_le hx
        (Nat.pow_le_pow_right (by decide) (by simp at hle; omega)))
    by_cases hle : g.SHIFT ≤ f.SHIFT + i
    · simp [hs, hle, hx' (by simpa using hle), show ¬ f.SHIFT + i < g.SHIFT + g.SIZE by omega]
    · simp [hs, hle]
  · simp [hs]

/-- A second update overwrites the first, when the first value fits. -/
theorem update_update (p x y : UInt64) (hx : x.toNat < 2 ^ f.SIZE) :
    f.update (f.update p x) y = f.update p y := by
  refine UInt64.ext_testBit fun i hi => ?_
  simp only [testBit_update f hf]
  by_cases hin : f.SHIFT ≤ i ∧ i < f.SHIFT + f.SIZE
  · simp [hin.1, hin.2]
  · have hxi : (decide (f.SHIFT ≤ i) && x.testBit (i - f.SHIFT)) = false := by
      by_cases hs : f.SHIFT ≤ i
      · simp only [hs, decide_True, Bool.true_and]
        exact Nat.testBit_lt_two_pow
          (Nat.lt_of_lt_of_le hx (Nat.pow_le_pow_right (by decide) (by omega)))
      · simp [hs]
    have hin' : (decide (f.SHIFT ≤ i) && decide (i < f.SHIFT + f.SIZE)) = false := by
      simpa using fun h => by omega
    simp only [hin', Bool.not_false, Bool.and_true, Bool.and_assoc, hxi, Bool.and_false,
      Bool.or_false]

/-- Writing back what a field reads changes nothing. -/
theorem update_decode_self (p : UInt64) : f.update p (f.decode p) = p := by
  refine UInt64.ext_testBit fun i hi => ?_
  rw [testBit_update f hf, testBit_decode f hf]
  by_cases hin : f.SHIFT ≤ i ∧ i < f.SHIFT + f.SIZE
  · simp [hin.1, hin.2, hi, show i - f.SHIFT < f.SIZE by omega, Nat.add_sub_cancel' hin.1]
  · by_cases hs : f.SHIFT ≤ i
    · simp [hs, show ¬ i < f.SHIFT + f.SIZE by omega, show ¬ i - f.SHIFT < f.SIZE by omega]
    · simp [hs]

/-- The laws of a `BitFieldTrait<SHIFT, SIZE>` with `SHIFT + SIZE < 64`: a
value that fits reads back, a second update overwrites the first, writing back
what was read changes nothing, and a field whose bits do not meet this one's
reads the same after an update of this one.  (An impl whose `MASK` does not
fit below bit `64` does not compile: the constant evaluation of `MASK`
overflows.) -/
theorem bitField_laws (p v w : UInt64) (hv : v.toNat < 2 ^ f.SIZE) :
    f.decode (f.update p v) = v ∧ f.update (f.update p v) w = f.update p w ∧
      f.update p (f.decode p) = p ∧
      ∀ g : BitField, g.SHIFT + g.SIZE < 64 →
        (g.SHIFT + g.SIZE ≤ f.SHIFT ∨ f.SHIFT + f.SIZE ≤ g.SHIFT) →
          g.decode (f.update p v) = g.decode p :=
  ⟨decode_update_self f hf p v hv, update_update f hf p v w hv, update_decode_self f hf p,
    fun g hg hd => decode_update_of_disjoint g hg f hf hd p v hv⟩

end Bits

end BitField

/-- `impl BitFieldTrait<0, 58> for VTableBitField`. -/
def VTableBitField : BitField := ⟨0, 58⟩

/-- `impl BitFieldTrait<0, 13> for SizeBitField`. -/
def SizeBitField : BitField := ⟨0, 13⟩

/-- `impl BitFieldTrait<3, 1> for ForwardedBit`. -/
def ForwardedBit : BitField := ⟨3, 1⟩

/-- `impl BitFieldTrait<48, 1> for MarkedBitField`. -/
def MarkedBitField : BitField := ⟨48, 1⟩

/-- `impl BitFieldTrait<14, 1> for MarkBit`. -/
def MarkBit : BitField := ⟨14, 1⟩

/-- The laws at `SizeBitField`, on a word with bits in and out of the field. -/
theorem bitField_laws_sizeBitField :
    (0 : Nat) + 13 < 64 ∧ (5 : UInt64).toNat < 2 ^ 13 ∧
    (SizeBitField.decode (SizeBitField.update 0xF0F0F0F0F0F0F0F0 5) = 5 ∧
      SizeBitField.update (SizeBitField.update 0xF0F0F0F0F0F0F0F0 5) 7 =
        SizeBitField.update 0xF0F0F0F0F0F0F0F0 7 ∧
      SizeBitField.update 0xF0F0F0F0F0F0F0F0 (SizeBitField.decode 0xF0F0F0F0F0F0F0F0) =
        0xF0F0F0F0F0F0F0F0 ∧
      ∀ g : BitField, g.SHIFT + g.SIZE < 64 →
        (g.SHIFT + g.SIZE ≤ SizeBitField.SHIFT ∨ SizeBitField.SHIFT + SizeBitField.SIZE ≤ g.SHIFT) →
          g.decode (SizeBitField.update 0xF0F0F0F0F0F0F0F0 5) = g.decode 0xF0F0F0F0F0F0F0F0) :=
  ⟨by decide, by decide,
    BitField.bitField_laws SizeBitField (by decide) 0xF0F0F0F0F0F0F0F0 5 7 (by decide)⟩

/-! ## `HeapObjectHeader` -/

/-- `HeapObjectHeader`: `value` holds the vtable, size and forwarding fields,
`padding` the mark bit. -/
structure HeapObjectHeader where
  value : UInt64
  padding : UInt32
  typeId : UInt32
  deriving DecidableEq

namespace HeapObjectHeader

/-- `set_forwarded(fwdptr)`. -/
def setForwarded (self : HeapObjectHeader) (fwdptr : Nat) : HeapObjectHeader :=
  let value := VTableBitField.update self.value fwdptr.toUInt64
  { self with value := ForwardedBit.update value 1 }

/-- `is_forwarded()`. -/
def isForwarded (self : HeapObjectHeader) : Bool := ForwardedBit.decode self.value != 0

/-- `size()`. -/
def size (self : HeapObjectHeader) : Nat := (SizeBitField.decode self.value).toNat * MIN_ALLOCATION

/-- `is_precise()`. -/
def isPrecise (self : HeapObjectHeader) : Bool := SizeBitField.decode self.value == 0

/-- `set_size(size)`; `none` when `assert!(size != 0)` panics. -/
def setSize (self : HeapObjectHeader) (size : Nat) : Option HeapObjectHeader :=
  if size = 0 then none
  else some { self with
    value := SizeBitField.update self.value (size.toUInt64 / MIN_ALLOCATION.toUInt64) }

/-- `set_large()`. -/
def setLarge (self : HeapObjectHeader) : HeapObjectHeader :=
  { self with value := SizeBitField.update self.value 0 }

/-- `vtable()`. -/
def vtable (self : HeapObjectHeader) : Nat := (VTableBitField.decode self.value).toNat

/-- `set_vtable(vtable)`. -/
def setVtable (self : HeapObjectHeader) (vtable : Nat) : HeapObjectHeader :=
  { self with value := VTableBitField.encode vtable.toUInt64 }

/-- `is_allocated()`: a non-zero vtable. -/
def isAllocated (self : HeapObjectHeader) : Bool := self.vtable != 0

/-- `marked_bit()`: `MarkBit` of `padding as u64`. -/
def markedBit (self : HeapObjectHeader) : Bool := MarkBit.decode self.padding.toUInt64 != 0

/-- `set_marked_bit()`: `MarkedBitField` of `padding as u64`, cast back to `u32`. -/
def setMarkedBit (self : HeapObjectHeader) : HeapObjectHeader :=
  { self with padding := (MarkedBitField.update self.padding.toUInt64 1).toUInt32 }

/-! ## What the accessors do -/

theorem toNat_toUInt64_lt {v : Nat} (hv : v < 2 ^ 58) : v.toUInt64.toNat = v :=
  Nat.mod_eq_of_lt (Nat.lt_trans hv (by decide))

/-- A vtable pointer below `2 ^ 58` reads back after `set_vtable`. -/
theorem vtable_setVtable (h : HeapObjectHeader) {v : Nat} (hv : v < 2 ^ 58) :
    (h.setVtable v).vtable = v := by
  have : VTableBitField.decode (VTableBitField.encode v.toUInt64) = v.toUInt64 := by
    refine UInt64.ext_testBit fun i hi => ?_
    rw [BitField.testBit_decode _ (by decide), BitField.testBit_encode _ (by decide)]
    by_cases hs : i < 58
    · simp [VTableBitField, hs, hi]
    · have : v.toUInt64.testBit i = false := by
        show v.toUInt64.toNat.testBit i = false
        rw [toNat_toUInt64_lt hv]
        exact Nat.testBit_lt_two_pow (Nat.lt_of_lt_of_le hv (Nat.pow_le_pow_right (by decide) (by omega)))
      simp [VTableBitField, hs, this]
  rw [vtable, setVtable, this, toNat_toUInt64_lt hv]

/-- A size that is a multiple of `MIN_ALLOCATION`, from `MIN_ALLOCATION` up to
`2 ^ 13` slots, reads back after `set_size`, and the header is not precise. -/
theorem size_setSize (h : HeapObjectHeader) {s : Nat} (hs : MIN_ALLOCATION ∣ s)
    (hlo : MIN_ALLOCATION ≤ s) (hhi : s < 2 ^ 13 * MIN_ALLOCATION) :
    ∃ h', h.setSize s = some h' ∧ h'.size = s ∧ h'.isPrecise = false := by
  have hq : (s.toUInt64 / MIN_ALLOCATION.toUInt64).toNat = s / MIN_ALLOCATION := by
    simp only [MIN_ALLOCATION] at hhi ⊢
    show (UInt64.ofNat s / UInt64.ofNat 16).toNat = s / 16
    rw [UInt64.toNat_div, @UInt64.toNat_ofNat_of_lt 16 (by decide),
      @UInt64.toNat_ofNat_of_lt s (by simp only [UInt64.size]; omega)]
  have hdec : SizeBitField.decode (SizeBitField.update h.value (s.toUInt64 / MIN_ALLOCATION.toUInt64)) =
      s.toUInt64 / MIN_ALLOCATION.toUInt64 :=
    BitField.decode_update_self _ (by decide) _ _ (by
      rw [hq]; simp only [SizeBitField, MIN_ALLOCATION] at hhi ⊢; omega)
  refine ⟨_, if_neg (by simp only [MIN_ALLOCATION] at hlo; omega), ?_, ?_⟩
  · rw [size, hdec, hq]
    exact Nat.div_mul_cancel hs
  · rw [isPrecise, hdec]
    have : s.toUInt64 / MIN_ALLOCATION.toUInt64 ≠ 0 := fun h0 => by
      have := congrArg UInt64.toNat h0
      rw [hq] at this
      simp only [MIN_ALLOCATION] at this hlo
      simp at this
      omega
    simpa using this

/-- `set_size(64)` on a zeroed header. -/
theorem size_setSize_64 :
    MIN_ALLOCATION ∣ 64 ∧ MIN_ALLOCATION ≤ 64 ∧ 64 < 2 ^ 13 * MIN_ALLOCATION ∧
      ∃ h', (⟨0, 0, 0⟩ : HeapObjectHeader).setSize 64 = some h' ∧ h'.size = 64 ∧
        h'.isPrecise = false :=
  ⟨by decide, by decide, by decide, size_setSize _ (by decide) (by decide) (by decide)⟩

theorem testBit_small (c i : Nat) (hc : c < 2 ^ 64) :
    (UInt64.ofNat c).testBit i = c.testBit i := by
  show (c % 2 ^ 64).testBit i = _
  rw [Nat.mod_eq_of_lt hc]

/-- What every accessor reads after `set_vtable(v)`, for a pointer below
`2 ^ 58`: `set_vtable` writes the whole of `value`, so `vtable()` and
`is_allocated()` read `v`, `is_forwarded()` reads bit 3 of `v` and `size()` its
low 13 bits, while the mark bit and the type id are untouched.  A vtable
with bit 3 set makes the fresh header read as forwarded. -/
theorem setVtable_accessors (h : HeapObjectHeader) {v : Nat} (hv : v < 2 ^ 58) :
    (h.setVtable v).vtable = v ∧ (h.setVtable v).isAllocated = decide (v ≠ 0) ∧
      (h.setVtable v).isForwarded = v.testBit 3 ∧
      (h.setVtable v).size = v % 2 ^ 13 * MIN_ALLOCATION ∧
      (h.setVtable v).markedBit = h.markedBit ∧ (h.setVtable v).typeId = h.typeId := by
  have hw : (h.setVtable v).value = v.toUInt64 := UInt64.ext_testBit fun i hi => by
    rw [setVtable, BitField.testBit_encode _ (by decide)]
    simp [VTableBitField, hi]
  have hwn : v.toUInt64.toNat = v := toNat_toUInt64_lt hv
  refine ⟨vtable_setVtable h hv, ?_, ?_, ?_, rfl, rfl⟩
  · rw [isAllocated, vtable_setVtable h hv]
    cases v <;> rfl
  · have hfwd : (ForwardedBit.decode v.toUInt64).toNat = v / 2 ^ 3 % 2 := by
      rw [BitField.toNat_decode _ (by decide), hwn]
      rfl
    rw [isForwarded, hw, Nat.testBit_to_div_mod, Bool.eq_iff_iff, bne_iff_ne, decide_eq_true_iff]
    constructor
    · intro h0
      have : (ForwardedBit.decode v.toUInt64).toNat ≠ 0 := fun h1 => h0 (UInt64.toNat.inj h1)
      omega
    · intro h1 h0
      rw [h0] at hfwd
      change 0 = _ at hfwd
      omega
  · rw [size, hw, BitField.toNat_decode _ (by decide), hwn]
    simp [SizeBitField]

/-- `set_vtable` of a vtable pointer with bit 3 set, on a zeroed header. -/
theorem setVtable_accessors_bit3 :
    0xDEAD0008 < 2 ^ 58 ∧
      ((⟨0, 0, 0⟩ : HeapObjectHeader).setVtable 0xDEAD0008).vtable = 0xDEAD0008 ∧
      ((⟨0, 0, 0⟩ : HeapObjectHeader).setVtable 0xDEAD0008).isAllocated =
        decide (0xDEAD0008 ≠ 0) ∧
      ((⟨0, 0, 0⟩ : HeapObjectHeader).setVtable 0xDEAD0008).isForwarded =
        Nat.testBit 0xDEAD0008 3 ∧
      ((⟨0, 0, 0⟩ : HeapObjectHeader).setVtable 0xDEAD0008).size =
        0xDEAD0008 % 2 ^ 13 * MIN_ALLOCATION ∧
      ((⟨0, 0, 0⟩ : HeapObjectHeader).setVtable 0xDEAD0008).markedBit =
        (⟨0, 0, 0⟩ : HeapObjectHeader).markedBit ∧
      ((⟨0, 0, 0⟩ : HeapObjectHeader).setVtable 0xDEAD0008).typeId =
        (⟨0, 0, 0⟩ : HeapObjectHeader).typeId :=
  ⟨by decide, setVtable_accessors _ (by decide)⟩

/-- `set_forwarded(a)` sets the forwarding bit, and then `vtable()` reads `a`
with bit 3 set: the forwarding bit lies inside the vtable field. -/
theorem setForwarded_fields (h : HeapObjectHeader) {a : Nat} (ha : a < 2 ^ 58) :
    (h.setForwarded a).isForwarded = true ∧ (h.setForwarded a).vtable = (a ||| 8) := by
  have hbit : ∀ i, (VTableBitField.decode (h.setForwarded a).value).testBit i =
      (decide (i < 58) && (a.testBit i || decide (i = 3))) := fun i => by
    rw [BitField.testBit_decode _ (by decide), setForwarded, BitField.testBit_update _ (by decide),
      BitField.testBit_update _ (by decide)]
    simp only [VTableBitField, ForwardedBit, Nat.zero_add, Nat.sub_zero]
    rw [show a.toUInt64 = UInt64.ofNat a from rfl, testBit_small a i (by omega)]
    by_cases hi : i < 58
    · by_cases h3 : i = 3
      · subst h3
        simp
      · rcases Nat.lt_or_gt_of_ne h3 with hlt | hgt
        · simp [hi, h3, show i < 64 by omega, show ¬ 3 ≤ i by omega]
        · simp [hi, h3, show i < 64 by omega, show ¬ i < 4 by omega, show i - 3 ≠ 0 by omega,
            show 3 ≤ i by omega]
    · simp [hi, show ¬ i < 1 + 3 by omega]
  refine ⟨?_, ?_⟩
  · rw [isForwarded, bne_iff_ne, ne_eq]
    intro h0
    have := (BitField.testBit_decode ForwardedBit (by decide) (h.setForwarded a).value 0)
    rw [h0, UInt64.testBit_zero, setForwarded, BitField.testBit_update _ (by decide)] at this
    simp [ForwardedBit] at this
  · rw [vtable]
    apply Nat.eq_of_testBit_eq
    intro i
    rw [show (VTableBitField.decode (h.setForwarded a).value).toNat.testBit i =
      (VTableBitField.decode (h.setForwarded a).value).testBit i from rfl, hbit, Nat.testBit_or]
    have h8 : (8 : Nat).testBit i = decide (i = 3) := by
      rw [show (8 : Nat) = 2 ^ 3 from rfl, Nat.testBit_two_pow]
      exact decide_eq_decide.2 eq_comm
    rw [h8]
    by_cases hi : i < 58
    · simp [hi]
    · have : a.testBit i = false :=
        Nat.testBit_lt_two_pow (Nat.lt_of_lt_of_le ha (Nat.pow_le_pow_right (by decide) (by omega)))
      simp [hi, this, show i ≠ 3 by omega]

/-- `set_forwarded(0xBEEF0000)`: `vtable()` then reads `0xBEEF0008`. -/
theorem setForwarded_fields_beef :
    0xBEEF0000 < 2 ^ 58 ∧
      ((⟨0xDEAD0004, 0, 0⟩ : HeapObjectHeader).setForwarded 0xBEEF0000).isForwarded = true ∧
      ((⟨0xDEAD0004, 0, 0⟩ : HeapObjectHeader).setForwarded 0xBEEF0000).vtable =
        (0xBEEF0000 ||| 8) :=
  ⟨by decide, setForwarded_fields _ (by decide)⟩

/-- Scenario S5 on a zeroed header: `set_vtable(0xDEAD0000)` and
`set_size(64)` already change `vtable()`, `set_marked_bit` leaves
`marked_bit()` false, and after `set_forwarded(0xBEEF0000)` both `vtable()` and
`size()` read the forwarding bit. -/
theorem header_fields_overlap :
    ((⟨0, 0, 0⟩ : HeapObjectHeader).setVtable 0xDEAD0000).setSize 64 =
        some ⟨0xDEAD0004, 0, 0⟩ ∧
      (⟨0xDEAD0004, 0, 0⟩ : HeapObjectHeader).vtable = 0xDEAD0004 ∧
      (⟨0xDEAD0004, 0, 0⟩ : HeapObjectHeader).setMarkedBit.markedBit = false ∧
      ((⟨0xDEAD0004, 0, 0⟩ : HeapObjectHeader).setForwarded 0xBEEF0000).isForwarded = true ∧
      ((⟨0xDEAD0004, 0, 0⟩ : HeapObjectHeader).setForwarded 0xBEEF0000).vtable = 0xBEEF0008 ∧
      ((⟨0xDEAD0004, 0, 0⟩ : HeapObjectHeader).setForwarded 0xBEEF0000).size = 128 := by
  decide

end HeapObjectHeader

end Comet
