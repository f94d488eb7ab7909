import SchedOS.Shared.Protection

set_option autoImplicit false

namespace SchedOS

open Bitfield Protection

structure GateDescriptor where
  gdOff15_0 : Nat
  gdSs : Nat
  gdArgs : Nat
  gdRsv1 : Nat
  gdType : Nat
  gdS : Nat
  gdDpl : Nat
  gdP : Nat
  gdOff31_16 : Nat

def GateDescriptor.fields (g : GateDescriptor) : List Bitfield.Field :=
  [(16, g.gdOff15_0), (16, g.gdSs), (5, g.gdArgs), (3, g.gdRsv1), (4, g.gdType), (1, g.gdS),
    (2, g.gdDpl), (1, g.gdP), (16, g.gdOff31_16)]

def GateDescriptor.bits (g : GateDescriptor) : Nat := pack g.fields

def GateDescriptor.zero : GateDescriptor := ⟨0, 0, 0, 0, 0, 0, 0, 0, 0⟩

structure SegmentDescriptor where
  sdLim15_0 : Nat
  sdBase15_0 : Nat
  sdBase23_16 : Nat
  sdType : Nat
  sdS : Nat
  sdDpl : Nat
  sdP : Nat
  sdLim19_16 : Nat
  sdAvl : Nat
  sdRsv1 : Nat
  sdDb : Nat
  sdG : Nat
  sdBase31_24 : Nat

def SegmentDescriptor.fields (s : SegmentDescriptor) : List Bitfield.Field :=
  [(16, s.sdLim15_0), (16, s.sdBase15_0), (8, s.sdBase23_16), (4, s.sdType), (1, s.sdS),
    (2, s.sdDpl), (1, s.sdP), (4, s.sdLim19_16), (1, s.sdAvl), (1, s.sdRsv1), (1, s.sdDb),
    (1, s.sdG), (8, s.sdBase31_24)]

def SegmentDescriptor.bits (s : SegmentDescriptor) : Nat := pack s.fields

def staX : Nat := 0x8
def staW : Nat := 0x2
def staR : Nat := 0x2
def stsT32a : Nat := 0x9
def stsIg32 : Nat := 0xE
def stsTg32 : Nat := 0xF

-- `SEG_NULL`, `SEG`, `SEG16` and `SETGATE`
def segNull : SegmentDescriptor := ⟨0, 0, 0, 0, 0, 0, 0, 0, 0, 0, 0, 0, 0⟩

def seg (type : Nat) (base lim : BitVec 32) (dpl : Nat) : SegmentDescriptor :=
  ⟨((lim >>> 12) &&& 0xFFFF).toNat, (base &&& 0xFFFF).toNat, ((base >>> 16) &&& 0xFF).toNat,
    type, 1, dpl, 1, ((lim >>> 28) &&& 0xF).toNat, 0, 0, 1, 1, ((base >>> 24) &&& 0xFF).toNat⟩

def seg16 (type : Nat) (base lim : BitVec 32) (dpl : Nat) : SegmentDescriptor :=
  ⟨(lim &&& 0xFFFF).toNat, (base &&& 0xFFFF).toNat, ((base >>> 16) &&& 0xFF).toNat,
    type, 1, dpl, 1, ((lim >>> 16) &&& 0xF).toNat, 0, 0, 1, 0, ((base >>> 24) &&& 0xFF).toNat⟩

def setgate (istrap : Bool) (sel : BitVec 16) (off : BitVec 32) (dpl : Nat) : GateDescriptor :=
  ⟨(off &&& 0xffff).toNat, sel.toNat, 0, 0, if istrap then stsTg32 else stsIg32, 0, dpl, 1,
    (off >>> 16).toNat⟩

section Reading

theorem gate_bits (g : GateDescriptor) : Gate.ofBits g.bits =
    { offset := g.gdOff15_0 % 2 ^ 16 + 2 ^ 16 * (g.gdOff31_16 % 2 ^ 16)
      selector := g.gdSs % 2 ^ 16
      kind := g.gdType % 2 ^ 4 + 2 ^ 4 * (g.gdS % 2 ^ 1)
      dpl := g.gdDpl % 2 ^ 2
      present := g.gdP % 2 ^ 1 == 1 } := by
  have offset : extract g.bits 0 16 = _ := @extract_field g.fields 0 _ _ rfl
  have selector : extract g.bits 16 16 = _ := @extract_field g.fields 1 _ _ rfl
  have kind : extract g.bits 40 4 = _ := @extract_field g.fields 4 _ _ rfl
  have system : extract g.bits 44 1 = _ := @extract_field g.fields 5 _ _ rfl
  have level : extract g.bits 45 2 = _ := @extract_field g.fields 6 _ _ rfl
  have present : extract g.bits 47 1 = _ := @extract_field g.fields 7 _ _ rfl
  have above : extract g.bits 48 16 = _ := @extract_field g.fields 8 _ _ rfl
  rw [Gate.ofBits, extract_split _ 40 4 1, offset, selector, kind, system, level, present, above]

theorem segment_bits (s : SegmentDescriptor) : Segment.ofBits s.bits =
    let limit := s.sdLim15_0 % 2 ^ 16 + 2 ^ 16 * (s.sdLim19_16 % 2 ^ 4)
    { base := s.sdBase15_0 % 2 ^ 16 + 2 ^ 16 * (s.sdBase23_16 % 2 ^ 8) +
        2 ^ 24 * (s.sdBase31_24 % 2 ^ 8)
      limit := if s.sdG % 2 ^ 1 = 1 then 4096 * limit + 4095 else limit
      kind := s.sdType % 2 ^ 4
      system := s.sdS % 2 ^ 1 == 0
      dpl := s.sdDpl % 2 ^ 2
      present := s.sdP % 2 ^ 1 == 1
      big := s.sdDb % 2 ^ 1 == 1 } := by
  have limit : extract s.bits 0 16 = _ := @extract_field s.fields 0 _ _ rfl
  have base : extract s.bits 16 16 = _ := @extract_field s.fields 1 _ _ rfl
  have middle : extract s.bits 32 8 = _ := @extract_field s.fields 2 _ _ rfl
  have kind : extract s.bits 40 4 = _ := @extract_field s.fields 3 _ _ rfl
  have system : extract s.bits 44 1 = _ := @extract_field s.fields 4 _ _ rfl
  have level : extract s.bits 45 2 = _ := @extract_field s.fields 5 _ _ rfl
  have present : extract s.bits 47 1 = _ := @extract_field s.fields 6 _ _ rfl
  have above : extract s.bits 48 4 = _ := @extract_field s.fields 7 _ _ rfl
  have big : extract s.bits 54 1 = _ := @extract_field s.fields 10 _ _ rfl
  have scaled : extract s.bits 55 1 = _ := @extract_field s.fields 11 _ _ rfl
  have top : extract s.bits 56 8 = _ := @extract_field s.fields 12 _ _ rfl
  rw [Segment.ofBits, extract_split _ 16 16 8, limit, base, middle, kind, system, level, present,
    above, big, scaled, top]

theorem low_16 (word : BitVec 32) : (word &&& 0xFFFF).toNat = word.toNat % 2 ^ 16 :=
  (BitVec.toNat_and word 0xFFFF).trans (Nat.and_two_pow_sub_one_eq_mod _ 16)

theorem low_8 (word : BitVec 32) : (word &&& 0xFF).toNat = word.toNat % 2 ^ 8 :=
  (BitVec.toNat_and word 0xFF).trans (Nat.and_two_pow_sub_one_eq_mod _ 8)

theorem low_4 (word : BitVec 32) : (word &&& 0xF).toNat = word.toNat % 2 ^ 4 :=
  (BitVec.toNat_and word 0xF).trans (Nat.and_two_pow_sub_one_eq_mod _ 4)

theorem shifted (word : BitVec 32) (places : Nat) :
    (word >>> places).toNat = word.toNat / 2 ^ places := by
  rw [BitVec.toNat_ushiftRight, Nat.shiftRight_eq_div_pow]

theorem gate_setgate (istrap : Bool) (sel : BitVec 16) (off : BitVec 32) {dpl : Nat}
    (level : dpl < 2 ^ 2) : Gate.ofBits (setgate istrap sel off dpl).bits =
      { offset := off.toNat, selector := sel.toNat,
        kind := if istrap then trapGate else interruptGate, dpl := dpl, present := true } := by
  have bound := off.isLt
  have offset : off.toNat % 2 ^ 16 % 2 ^ 16 + 2 ^ 16 * (off.toNat / 2 ^ 16 % 2 ^ 16) =
      off.toNat := by omega
  rw [gate_bits]
  simp only [setgate, low_16, shifted, offset, Nat.mod_eq_of_lt sel.isLt, Nat.mod_eq_of_lt level]
  cases istrap <;> rfl

theorem base_parts (base : BitVec 32) :
    (base &&& 0xFFFF).toNat % 2 ^ 16 + 2 ^ 16 * (((base >>> 16) &&& 0xFF).toNat % 2 ^ 8) +
      2 ^ 24 * (((base >>> 24) &&& 0xFF).toNat % 2 ^ 8) = base.toNat := by
  have bound := base.isLt
  rw [low_16, low_8, low_8, shifted, shifted]
  omega

theorem segment_seg {type dpl : Nat} (base lim : BitVec 32) (kind : type < 2 ^ 4)
    (level : dpl < 2 ^ 2) : Segment.ofBits (seg type base lim dpl).bits =
      { base := base.toNat, limit := 4096 * (lim.toNat / 4096) + 4095, kind := type,
        system := false, dpl := dpl, present := true, big := true } := by
  have bound := lim.isLt
  have limit : ((lim >>> 12) &&& 0xFFFF).toNat % 2 ^ 16 +
      2 ^ 16 * (((lim >>> 28) &&& 0xF).toNat % 2 ^ 4) = lim.toNat / 4096 := by
    rw [low_16, low_4, shifted, shifted]
    omega
  rw [segment_bits]
  simp only [seg, limit, base_parts, Nat.mod_eq_of_lt kind, Nat.mod_eq_of_lt level]
  rfl

theorem segment_seg16 {type dpl : Nat} (base lim : BitVec 32) (kind : type < 2 ^ 4)
    (level : dpl < 2 ^ 2) : Segment.ofBits (seg16 type base lim dpl).bits =
      { base := base.toNat, limit := lim.toNat % 2 ^ 20, kind := type,
        system := false, dpl := dpl, present := true, big := true } := by
  have limit : (lim &&& 0xFFFF).toNat % 2 ^ 16 +
      2 ^ 16 * (((lim >>> 16) &&& 0xF).toNat % 2 ^ 4) = lim.toNat % 2 ^ 20 := by
    rw [low_16, low_4, shifted]
    omega
  rw [segment_bits]
  simp only [seg16, limit, base_parts, Nat.mod_eq_of_lt kind, Nat.mod_eq_of_lt level]
  rfl

end Reading

end SchedOS
