import SchedOS.Boot.Elf
import SchedOS.Boot.Image

set_option autoImplicit false

namespace SchedOS

def sectorsize : BitVec 32 := 512
def elfhdr : BitVec 32 := 0x10000

-- The sector that the four bytes written to the ports 0x1F3 to 0x1F6 address.
def driveSector (sect : BitVec 32) : BitVec 28 :=
  ((sect >>> 24) ||| 0xE0).setWidth 4 ++
    ((sect >>> 16).setWidth 8 ++ ((sect >>> 8).setWidth 8 ++ sect.setWidth 8))

def sector (disk : Nat → Byte) (n : Nat) : List Byte :=
  (List.range 512).map fun i => disk (512 * n + i)

def readsect (disk : Nat → Byte) (dst sect : BitVec 32) (m : Bytes) : Bytes :=
  Memory.store dst (sector disk (driveSector sect).toNat) m

def readsegPass (disk : Nat → Byte) (endVa : BitVec 32) :
    BitVec 32 × BitVec 32 × Bytes → Loop.Pass (BitVec 32 × BitVec 32 × Bytes) Bytes
  | (va, sect, m) =>
      if va < endVa then .again (va + sectorsize, sect + 1, readsect disk va sect m) else .leave m

def readseg (fuel : Nat) (disk : Nat → Byte) (va filesz memsz sect : BitVec 32) (m : Bytes) :
    Option Bytes :=
  let endVa := va + filesz
  let memsz := memsz + va
  let va := roundDown sectorsize va
  (Loop.run (readsegPass disk endVa) fuel (va, sect, m)).map (clearBss endVa memsz)

def bootPass (fuel : Nat) (disk : Nat → Byte) (eph : BitVec 32) :
    BitVec 32 × Bytes → Loop.Pass (BitVec 32 × Bytes) (Option Bytes)
  | (ph, m) =>
      if ph < eph then
        let header := Proghdr.read m ph
        match readseg fuel disk header.pVa header.pFilesz header.pMemsz
            (1 + header.pOffset / sectorsize) m with
        | none => .leave none
        | some m => .again (ph + sizeofProghdr, m)
      else .leave (some m)

inductive Booted where
  | returned (m : Bytes)
  | jumped (entry : BitVec 32) (m : Bytes)

def bootmain (fuel : Nat) (disk : Nat → Byte) (m : Bytes) : Option Booted := do
  let m ← readseg fuel disk elfhdr pagesize pagesize 1 m
  let elf := Elf.read m elfhdr
  if elf.eMagic ≠ elfMagic then return .returned m
  else
    let ph := elfhdr + elf.ePhoff
    let eph := ph + sizeofProghdr * elf.ePhnum.setWidth 32
    let m ← (Loop.run (bootPass fuel disk eph) fuel (ph, m)).join
    return .jumped (Elf.read m elfhdr).eEntry m

theorem driveSector_toNat (sect : BitVec 32) :
    (driveSector sect).toNat = sect.toNat % 2 ^ 28 := by
  have nibble : ((sect >>> 24) ||| 0xE0).setWidth 4 = (sect >>> 24).setWidth 4 := by
    rw [BitVec.setWidth_or]
    simp
  unfold driveSector
  rw [nibble]
  simp only [append_toNat, BitVec.toNat_setWidth, BitVec.toNat_ushiftRight,
    Nat.shiftRight_eq_div_pow]
  omega

theorem readsect_get (disk : Nat → Byte) (dst sect : BitVec 32) (m : Bytes) (x : BitVec 32) :
    readsect disk dst sect m x =
      if (x - dst).toNat < 512 then disk (512 * (sect.toNat % 2 ^ 28) + (x - dst).toNat)
      else m x := by
  rw [readsect, Memory.store_get _ _ (by simp [sector]), driveSector_toNat]
  split
  · next inside =>
      rw [sector, List.getElem?_map, List.getElem?_range inside]
      rfl
  · next outside =>
      rw [List.getElem?_eq_none (by simpa [sector] using outside)]
      rfl

section Segments

variable (disk : Nat → Byte) (va sect endVa : BitVec 32) (m : Bytes)

theorem readSectors_run {n : Nat} (fits : va.toNat + 512 * n < 2 ^ 32)
    (enough : endVa.toNat ≤ va.toNat + 512 * n)
    (needed : ∀ k, k < n → va.toNat + 512 * k < endVa.toNat)
    (addressed : sect.toNat + n ≤ 2 ^ 28) :
    ∃ m', Loop.run (readsegPass disk endVa) (n + 1) (va, sect, m) = some m' ∧
      ∀ x, m' x = if (x - va).toNat < 512 * n then disk (512 * sect.toNat + (x - va).toNat)
        else m x := by
  induction n generalizing va sect m with
  | zero =>
      have pass : readsegPass disk endVa (va, sect, m) = .leave m := if_neg (by bv_omega)
      exact ⟨m, Loop.run_leave pass 0, fun x => rfl⟩
  | succ n ih =>
      have first := needed 0 (by omega)
      have next : (va + sectorsize).toNat = va.toNat + 512 := by
        unfold sectorsize
        bv_omega
      have nextSect : (sect + 1).toNat = sect.toNat + 1 := by bv_omega
      obtain ⟨m', run, memory⟩ := ih (va + sectorsize) (sect + 1) (readsect disk va sect m)
        (by omega) (by omega)
        (fun k less => by have := needed (k + 1) (by omega); omega) (by omega)
      refine ⟨m', ?_, fun x => ?_⟩
      · have pass : readsegPass disk endVa (va, sect, m) =
            .again (va + sectorsize, sect + 1, readsect disk va sect m) := if_pos (by bv_omega)
        rw [Loop.run_again pass, run]
      · rw [memory x, readsect_get, nextSect, Nat.mod_eq_of_lt (show sect.toNat < 2 ^ 28 by omega)]
        have whole := x.isLt
        unfold sectorsize at next ⊢
        by_cases here : (x - va).toNat < 512
        · rw [if_neg (by bv_omega), if_pos here, if_pos (by omega)]
        · rw [if_neg here]
          by_cases later : (x - (va + 512)).toNat < 512 * n
          · have offset : (x - va).toNat = (x - (va + 512)).toNat + 512 := by bv_omega
            rw [if_pos later, if_pos (by omega), offset]
            exact congrArg disk (by omega)
          · rw [if_neg later, if_neg (by bv_omega)]

def sectorStart (n : Nat) : Nat := n / 512 * 512

def sectorEnd (n : Nat) : Nat := (n + 511) / 512 * 512

theorem readseg_get (filesz memsz : BitVec 32) {fuel : Nat} (enough : 2 ^ 23 + 1 ≤ fuel)
    (inside : filesz.toNat ≤ memsz.toNat) (fits : va.toNat + memsz.toNat < 2 ^ 32)
    (sectors : sectorEnd (va.toNat + filesz.toNat) < 2 ^ 32)
    (addressed : sect.toNat + 2 ^ 23 ≤ 2 ^ 28) :
    ∃ m', readseg fuel disk va filesz memsz sect m = some m' ∧
      ∀ x, m' x =
        if va.toNat + filesz.toNat ≤ x.toNat ∧ x.toNat < va.toNat + memsz.toNat then 0
        else if sectorStart va.toNat ≤ x.toNat ∧ x.toNat < sectorEnd (va.toNat + filesz.toNat) then
          disk (512 * sect.toNat + (x.toNat - sectorStart va.toNat))
        else m x := by
  have start : (roundDown sectorsize va).toNat = sectorStart va.toNat := by
    have aligned : (roundDown sectorsize va).toNat = va.toNat - va.toNat % 512 :=
      roundDown_toNat (show 9 < 32 by decide) va
    unfold sectorStart
    omega
  have fileEnd : (va + filesz).toNat = va.toNat + filesz.toNat := by bv_omega
  have memEnd : (memsz + va).toNat = va.toNat + memsz.toNat := by bv_omega
  unfold sectorStart at start
  unfold sectorEnd at sectors
  obtain ⟨n, count⟩ : ∃ n, (va.toNat + filesz.toNat + 511) / 512 * 512 =
      va.toNat / 512 * 512 + 512 * n :=
    ⟨(va.toNat + filesz.toNat + 511) / 512 - va.toNat / 512, by omega⟩
  obtain ⟨read, run, memory⟩ := readSectors_run disk (roundDown sectorsize va) sect
    (va + filesz) m (n := n) (by omega) (by omega) (fun k less => by omega) (by omega)
  refine ⟨clearBss (va + filesz) (memsz + va) read, ?_, fun x => ?_⟩
  · unfold readseg
    simp only [Loop.run_mono (show n + 1 ≤ fuel by omega) _ _ run, Option.map_some]
  · have whole := x.isLt
    rw [clearBss_get]
    refine if_congr (by rw [BitVec.le_def, BitVec.lt_def, fileEnd, memEnd]) rfl ?_
    rw [memory x]
    unfold sectorStart sectorEnd
    by_cases inSectors : (x - roundDown sectorsize va).toNat < 512 * n
    · have offset : (x - roundDown sectorsize va).toNat = x.toNat - va.toNat / 512 * 512 := by
        bv_omega
      rw [if_pos inSectors, if_pos (by bv_omega), offset]
    · rw [if_neg inSectors, if_neg (by bv_omega)]

end Segments

end SchedOS
