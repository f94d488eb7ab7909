import SchedOS.Boot.Elf
import SchedOS.Shared.Loop

set_option autoImplicit false

namespace SchedOS

structure RamImage where
  begin_ : BitVec 32
  end_ : BitVec 32

def wordBytes (v : BitVec 32) : List Byte :=
  [v.setWidth 8, (v >>> 8).setWidth 8, (v >>> 16).setWidth 8, (v >>> 24).setWidth 8]

def write32 (a v : BitVec 32) (m : Bytes) : Bytes := Memory.store a (wordBytes v) m

def copyseg (dst src filesz memsz : BitVec 32) (m : Bytes) : Bytes :=
  let va := dst
  let endVa := va + filesz
  let memsz := memsz + va
  let va := roundDown pagesize va
  clearBss endVa memsz (memcpy va src (endVa - va) m)

def loaderPass (elfHeader eph : BitVec 32) :
    BitVec 32 × Bytes → Loop.Pass (BitVec 32 × Bytes) Bytes
  | (ph, m) =>
      if ph < eph then
        let header := Proghdr.read m ph
        .again (ph + sizeofProghdr,
          if header.pType = elfProgLoad then
            copyseg header.pVa (elfHeader + header.pOffset) header.pFilesz header.pMemsz m
          else m)
      else .leave m

-- `program_loader` returns, or `loader_panic` marks the screen and loops.
inductive LoaderResult where
  | returned (m : Bytes)
  | panicked (m : Bytes)

def loaderPanic (m : Bytes) : LoaderResult :=
  .panicked (Memory.store 0xB8000 [chr '!', 0x07] m)

/-- `program_loader`, with fuel for its loop. -/
def programLoader (fuel : Nat) (ramimages : List RamImage) (programId : Int)
    (entryPoint : BitVec 32) (m : Bytes) : Option LoaderResult :=
  if programId < 0 then some (loaderPanic m)
  else
    match ramimages[programId.toNat]? with
    | none => some (loaderPanic m)
    | some image =>
        let elfHeader := image.begin_
        let elf := Elf.read m elfHeader
        if elf.eMagic ≠ elfMagic then some (loaderPanic m)
        else
          let ph := elfHeader + elf.ePhoff
          let eph := ph + sizeofProghdr * elf.ePhnum.setWidth 32
          (Loop.run (loaderPass elfHeader eph) fuel (ph, m)).map fun m =>
            .returned (write32 entryPoint (Elf.read m elfHeader).eEntry m)

theorem loaderPass_again (elfHeader : BitVec 32) {eph ph : BitVec 32} (m : Bytes)
    (more : ph < eph) :
    loaderPass elfHeader eph (ph, m) = .again (ph + sizeofProghdr,
      if (Proghdr.read m ph).pType = elfProgLoad then
        copyseg (Proghdr.read m ph).pVa (elfHeader + (Proghdr.read m ph).pOffset)
          (Proghdr.read m ph).pFilesz (Proghdr.read m ph).pMemsz m
      else m) :=
  if_pos more

theorem wordBytes_length (v : BitVec 32) : (wordBytes v).length = 4 := rfl

theorem write32_get (a v : BitVec 32) (m : Bytes) {x : BitVec 32} (away : ¬ (x - a).toNat < 4) :
    write32 a v m x = m x := by
  rw [write32, Memory.store_get _ _ (by rw [wordBytes_length]; decide),
    List.getElem?_eq_none (by rw [wordBytes_length]; omega)]
  rfl

theorem read32_write32 (a v : BitVec 32) (m : Bytes) : read32 (write32 a v m) a = v := by
  have byte (k : BitVec 32) : write32 a v m (a + k) =
      ((wordBytes v)[k.toNat]?).getD (m (a + k)) := by
    rw [write32, Memory.store_get _ _ (by rw [wordBytes_length]; decide), add_sub_cancel_left]
  have first : write32 a v m a = v.setWidth 8 := by
    have := byte 0
    rwa [show a + 0 = a from add_zero a] at this
  have bytes : read32 (write32 a v m) a =
      (v >>> 24).setWidth 8 ++ (v >>> 16).setWidth 8 ++ (v >>> 8).setWidth 8 ++ v.setWidth 8 := by
    rw [read32, byte 3, byte 2, byte 1, first]
    rfl
  rw [bytes]
  apply BitVec.eq_of_toNat_eq
  have whole := v.isLt
  simp only [append_toNat, BitVec.toNat_setWidth, BitVec.toNat_ushiftRight,
    Nat.shiftRight_eq_div_pow]
  omega

namespace Proghdr

variable (ph : Proghdr)

def pageOffset : Nat := ph.pVa.toNat % 4096

def InSegment (x : BitVec 32) : Prop :=
  ph.pVa.toNat ≤ x.toNat ∧ x.toNat < ph.pVa.toNat + ph.pMemsz.toNat

def InPages (x : BitVec 32) : Prop :=
  ph.pVa.toNat - ph.pageOffset ≤ x.toNat ∧ x.toNat < ph.pVa.toNat + ph.pMemsz.toNat

def InSource (image x : BitVec 32) : Prop :=
  (x - (image + ph.pOffset)).toNat < ph.pageOffset + ph.pFilesz.toNat

end Proghdr

instance (ph : Proghdr) : DecidablePred ph.InSegment := fun _ => inferInstanceAs (Decidable (_ ∧ _))

instance (ph : Proghdr) : DecidablePred ph.InPages := fun _ => inferInstanceAs (Decidable (_ ∧ _))

theorem copyseg_get {ph : Proghdr} {image : BitVec 32}
    (sizes : ph.pFilesz.toNat ≤ ph.pMemsz.toNat) (fits : ph.pVa.toNat + ph.pMemsz.toNat < 2 ^ 32)
    (apart : ∀ x, ph.InPages x → ¬ ph.InSource image x) (m : Bytes) (x : BitVec 32) :
    copyseg ph.pVa (image + ph.pOffset) ph.pFilesz ph.pMemsz m x =
      if ph.InPages x then
        if ph.pVa.toNat + ph.pFilesz.toNat ≤ x.toNat then 0
        else m (image + ph.pOffset +
          BitVec.ofNat 32 (x.toNat - (ph.pVa.toNat - ph.pageOffset)))
      else m x := by
  have start : (roundDown pagesize ph.pVa).toNat = ph.pVa.toNat - ph.pageOffset :=
    roundDown_toNat (show 12 < 32 by decide) ph.pVa
  have most : ph.pageOffset ≤ ph.pVa.toNat := Nat.mod_le _ _
  have fileEnd : (ph.pVa + ph.pFilesz).toNat = ph.pVa.toNat + ph.pFilesz.toNat := by bv_omega
  have memEnd : (ph.pMemsz + ph.pVa).toNat = ph.pVa.toNat + ph.pMemsz.toNat := by bv_omega
  have whole := x.isLt
  unfold copyseg
  generalize roundDown pagesize ph.pVa = dst at start ⊢
  have count : (ph.pVa + ph.pFilesz - dst).toNat = ph.pageOffset + ph.pFilesz.toNat := by bv_omega
  have ahead : (dst - (image + ph.pOffset)).toNat = 0 ∨
      (ph.pVa + ph.pFilesz - dst).toNat ≤ (dst - (image + ph.pOffset)).toNat := by
    rw [count]
    rcases Nat.eq_zero_or_pos (ph.pageOffset + ph.pFilesz.toNat) with none | some
    · exact .inr (by omega)
    · have outside := apart dst ⟨by omega, by omega⟩
      exact .inr (Nat.le_of_not_lt outside)
  rw [clearBss_get, memcpy, Memory.copy_get (by omega) ahead, count]
  by_cases inside : ph.InPages x
  · rw [if_pos inside]
    obtain ⟨low, high⟩ := inside
    by_cases bss : ph.pVa.toNat + ph.pFilesz.toNat ≤ x.toNat
    · rw [if_pos bss, if_pos (by bv_omega)]
    · have offset : x - dst = BitVec.ofNat 32 (x.toNat - (ph.pVa.toNat - ph.pageOffset)) := by
        bv_omega
      rw [if_neg bss, if_neg (by bv_omega), if_pos (by bv_omega), offset]
  · rw [if_neg inside]
    unfold Proghdr.InPages at inside
    rw [if_neg (by bv_omega), if_neg (by bv_omega)]

end SchedOS
