import SchedOS.Boot.Elf

set_option autoImplicit false

namespace SchedOS

def memmove (dst src n : BitVec 32) (m : Bytes) : Bytes :=
  if src < dst ∧ dst < src + n then Memory.copyBack n.toNat (dst + n) (src + n) m
  else Memory.copy n.toNat dst src m

def InBlock (a n x : BitVec 32) : Prop := a.toNat ≤ x.toNat ∧ x.toNat < a.toNat + n.toNat

section Move

variable {src dst n : BitVec 32}

theorem memmove_get (source : src.toNat + n.toNat < 2 ^ 32) (target : dst.toNat + n.toNat < 2 ^ 32)
    (m : Bytes) (x : BitVec 32) :
    memmove dst src n m x = if (x - dst).toNat < n.toNat then m (src + (x - dst)) else m x := by
  have sourceEnd := BitVec.toNat_add_of_lt source
  unfold memmove
  by_cases above : src < dst ∧ dst < src + n
  · have apart : n.toNat ≤ (src - dst).toNat := by bv_omega
    have count : BitVec.ofNat 32 n.toNat = n := BitVec.ofNat_toNat 32 n
    have back := Memory.copyBack_get n.isLt (.inr apart) m x
    rw [count] at back
    rw [if_pos above, back]
  · have apart : (dst - src).toNat = 0 ∨ n.toNat ≤ (dst - src).toNat := by bv_omega
    rw [if_neg above, Memory.copy_get n.isLt.le apart]

theorem memcpy_eq_memmove (m : Bytes)
    (safe : (∀ x, InBlock src n x → ¬ InBlock dst n x) ∨ dst.toNat ≤ src.toNat)
    (source : src.toNat + n.toNat < 2 ^ 32) : memcpy dst src n m = memmove dst src n m := by
  have sourceEnd := BitVec.toNat_add_of_lt source
  have forward : ¬ (src < dst ∧ dst < src + n) := by
    rintro ⟨above, within⟩
    rcases safe with disjoint | below
    · exact disjoint dst ⟨by bv_omega, by bv_omega⟩ ⟨le_rfl, by bv_omega⟩
    · bv_omega
  rw [memmove, if_neg forward, memcpy]

theorem memmove_copies (source : src.toNat + n.toNat < 2 ^ 32)
    (target : dst.toNat + n.toNat < 2 ^ 32) (m : Bytes) :
    (∀ i, i < n.toNat →
      memmove dst src n m (dst + BitVec.ofNat 32 i) = m (src + BitVec.ofNat 32 i)) ∧
    (∀ x, ¬ InBlock dst n x → memmove dst src n m x = m x) ∧
    ((∀ x, InBlock src n x → ¬ InBlock dst n x) ∨ dst.toNat ≤ src.toNat →
      memcpy dst src n m = memmove dst src n m) := by
  refine ⟨fun i less => ?_, fun x outside => ?_, fun safe => memcpy_eq_memmove m safe source⟩
  · rw [memmove_get source target, add_sub_cancel_left, BitVec.toNat_ofNat,
      Nat.mod_eq_of_lt (by omega), if_pos less]
  · rw [memmove_get source target, if_neg]
    unfold InBlock at outside
    bv_omega

theorem memmove_copies_up : memmove 0x1003 0x1000 8 (fun x => x.setWidth 8) 0x1005 = 0x02 := by
  have source : (0x1000 : BitVec 32).toNat + (8 : BitVec 32).toNat < 2 ^ 32 := by decide
  have target : (0x1003 : BitVec 32).toNat + (8 : BitVec 32).toNat < 2 ^ 32 := by decide
  exact (memmove_copies source target (fun x => x.setWidth 8)).1 2 (by decide)

end Move

end SchedOS
