import Mathlib.Data.List.GetD
import SchedOS.Boot.Arguments
import SchedOS.Boot.Loader

set_option autoImplicit false

namespace SchedOS

def fileBytes (content : List Byte) : Bytes := fun a => content.getD a.toNat 0

def fileElf (content : List Byte) : Elf := Elf.read (fileBytes content) 0

def fileProghdr (content : List Byte) (j : Nat) : Proghdr :=
  Proghdr.read (fileBytes content)
    ((fileElf content).ePhoff + BitVec.ofNat 32 (32 * j))

namespace Proghdr

variable (ph : Proghdr)

def InRange (x : BitVec 32) : Prop :=
  ph.pVa.toNat ≤ x.toNat ∧ x.toNat < ph.pVa.toNat + ph.pMemsz.toNat

def InSectors (x : BitVec 32) : Prop :=
  sectorStart ph.pVa.toNat ≤ x.toNat ∧ x.toNat < sectorEnd (ph.pVa.toNat + ph.pMemsz.toNat)

end Proghdr

def InHeaderPage (x : BitVec 32) : Prop := 0x10000 ≤ x.toNat ∧ x.toNat < 0x11000

/-- A program header that the boot loader can load: aligned as ELF asks for, within the file, and
away from the page with the headers. -/
structure Proghdr.Loadable (content : List Byte) (ph : Proghdr) : Prop where
  aligned : ph.pVa.toNat % 512 = ph.pOffset.toNat % 512
  sizes : ph.pFilesz.toNat ≤ ph.pMemsz.toNat
  inside : ph.pOffset.toNat + ph.pFilesz.toNat ≤ content.length
  fits : ph.pVa.toNat + ph.pMemsz.toNat < 2 ^ 32
  sectors : sectorEnd (ph.pVa.toNat + ph.pFilesz.toNat) < 2 ^ 32
  page : ∀ x, ph.InSectors x → ¬ InHeaderPage x

structure LoadableKernel (content : List Byte) : Prop where
  magic : (fileElf content).eMagic = elfMagic
  headers : (fileElf content).ePhoff.toNat + 32 * (fileElf content).ePhnum.toNat ≤ 4096
  loadable : ∀ j, j < (fileElf content).ePhnum.toNat → (fileProghdr content j).Loadable content
  apart : ∀ i j, i < (fileElf content).ePhnum.toNat → j < (fileElf content).ePhnum.toNat →
    i ≠ j → ∀ x, (fileProghdr content i).InSectors x → ¬ (fileProghdr content j).InRange x

def Proghdr.Loaded (content : List Byte) (m : Bytes) (ph : Proghdr) : Prop :=
  ∀ i, i < ph.pMemsz.toNat → m (ph.pVa + BitVec.ofNat 32 i) =
    if i < ph.pFilesz.toNat then content.getD (ph.pOffset.toNat + i) 0 else 0

def HoldsFile (content : List Byte) (disk : Nat → Byte) : Prop :=
  ∀ i, i < content.length ∨ i < 4096 → disk (512 + i) = content.getD i 0

theorem image_holds {boot content : List Byte} (small : boot.length ≤ 510) {disk : Nat → Byte}
    {image : List Byte} (made : image = bootSector boot ++ paddedFile content ++
      zerobuf (512 * (1024 - (1 + (paddedFile content).length / 512))))
    (holds : ∀ i, i < image.length → disk i = image.getD i 0) : HoldsFile content disk := by
  have sector := bootSector_length small
  have whole : (paddedFile content).length % 512 = 0 := by
    simp only [paddedFile, zerobuf, padding, List.length_append, List.length_replicate]
    omega
  have most : content.length ≤ (paddedFile content).length := by
    rw [paddedFile, List.length_append]
    omega
  have length : image.length = 512 + (paddedFile content).length +
      512 * (1024 - (1 + (paddedFile content).length / 512)) := by
    rw [made, List.length_append, List.length_append, sector, zerobuf, List.length_replicate]
  intro i bound
  rw [holds _ (by omega), made, List.append_assoc, List.getD_append_right _ _ _ _ (by omega),
    sector,
    Nat.add_sub_cancel_left, paddedFile, List.append_assoc]
  rcases Nat.lt_or_ge i content.length with inside | behind
  · rw [List.getD_append _ _ _ _ inside]
  · rw [List.getD_append_right _ _ _ _ behind, List.getD_eq_default _ _ behind, zerobuf, zerobuf,
      List.replicate_append_replicate]
    rcases Nat.lt_or_ge (i - content.length) (padding content.length +
      512 * (1024 - (1 + (content ++ List.replicate (padding content.length) 0).length / 512)))
      with zero | beyond
    · exact List.getD_replicate 0 zero
    · exact List.getD_eq_default _ _ (by rwa [List.length_replicate])

section Load

variable {content : List Byte} {disk : Nat → Byte} {m : Bytes}

def HasHeaders (content : List Byte) (m : Bytes) : Prop :=
  ∀ i, i < 4096 → m (elfhdr + BitVec.ofNat 32 i) = content.getD i 0

theorem headers_read (holds : HoldsFile content disk) {fuel : Nat} (enough : 2 ^ 23 + 1 ≤ fuel) :
    ∃ m', readseg fuel disk elfhdr pagesize pagesize 1 m = some m' ∧ HasHeaders content m' := by
  obtain ⟨m', read, memory⟩ := readseg_get disk elfhdr 1 m pagesize pagesize enough le_rfl
    (by decide) (by decide) (by decide)
  refine ⟨m', read, fun i bound => ?_⟩
  have address : (elfhdr + BitVec.ofNat 32 i).toNat = 0x10000 + i := by
    unfold elfhdr
    bv_omega
  have outside : elfhdr.toNat = 0x10000 ∧ pagesize.toNat = 4096 := ⟨rfl, rfl⟩
  rw [memory, address, outside.1, outside.2, if_neg (by omega), if_pos (by
    unfold sectorStart sectorEnd; omega)]
  rw [← holds i (.inr bound)]
  exact congrArg disk (by unfold sectorStart; change 512 * 1 + _ = _; omega)

theorem segment_loaded {ph : Proghdr} (loadable : ph.Loadable content)
    (holds : HoldsFile content disk) {fuel : Nat} (enough : 2 ^ 23 + 1 ≤ fuel) :
    ∃ m', readseg fuel disk ph.pVa ph.pFilesz ph.pMemsz (1 + ph.pOffset / sectorsize) m = some m' ∧
      ph.Loaded content m' ∧ ∀ x, ¬ ph.InSectors x → m' x = m x := by
  have first : (1 + ph.pOffset / sectorsize).toNat = 1 + ph.pOffset.toNat / 512 := by
    have : (ph.pOffset / sectorsize).toNat = ph.pOffset.toNat / 512 := BitVec.toNat_udiv
    have := ph.pOffset.isLt
    bv_omega
  have offset := ph.pOffset.isLt
  obtain ⟨m', read, memory⟩ := readseg_get disk ph.pVa (1 + ph.pOffset / sectorsize) m
    ph.pFilesz ph.pMemsz enough loadable.sizes loadable.fits loadable.sectors
    (by rw [first]; omega)
  have sizes := loadable.sizes
  have fits := loadable.fits
  have aligned := loadable.aligned
  refine ⟨m', read, fun i bound => ?_, fun x away => ?_⟩
  · have address : (ph.pVa + BitVec.ofNat 32 i).toNat = ph.pVa.toNat + i :=
      address_toNat (by omega)
    rw [memory, address, first]
    by_cases file : i < ph.pFilesz.toNat
    · have within := loadable.inside
      rw [if_neg (by omega), if_pos (by unfold sectorStart sectorEnd; omega), if_pos file,
        ← holds _ (.inl (show ph.pOffset.toNat + i < content.length by omega))]
      exact congrArg disk (by unfold sectorStart; omega)
    · rw [if_pos (by omega), if_neg file]
  · have below : sectorStart ph.pVa.toNat ≤ ph.pVa.toNat := Nat.div_mul_le_self _ _
    have above (n : Nat) : n ≤ sectorEnd n := by
      unfold sectorEnd
      omega
    have grows : sectorEnd (ph.pVa.toNat + ph.pFilesz.toNat) ≤
        sectorEnd (ph.pVa.toNat + ph.pMemsz.toNat) :=
      Nat.mul_le_mul_right _ (Nat.div_le_div_right (by omega))
    have bss : ¬ (ph.pVa.toNat + ph.pFilesz.toNat ≤ x.toNat ∧
        x.toNat < ph.pVa.toNat + ph.pMemsz.toNat) := fun inside =>
      away ⟨by omega, inside.2.trans_le (above _)⟩
    have file : ¬ (sectorStart ph.pVa.toNat ≤ x.toNat ∧
        x.toNat < sectorEnd (ph.pVa.toNat + ph.pFilesz.toNat)) := fun inside =>
      away ⟨inside.1, inside.2.trans_le grows⟩
    rw [memory, if_neg bss, if_neg file]

variable (kernel : LoadableKernel content)

include kernel

theorem header_address {j : Nat} (bound : j ≤ (fileElf content).ePhnum.toNat) :
    (elfhdr + (fileElf content).ePhoff + BitVec.ofNat 32 (32 * j)).toNat =
      0x10000 + (fileElf content).ePhoff.toNat + 32 * j := by
  have := kernel.headers
  unfold elfhdr
  bv_omega

theorem header_read (headers : HasHeaders content m) {j : Nat}
    (bound : j < (fileElf content).ePhnum.toNat) :
    Proghdr.read m (elfhdr + (fileElf content).ePhoff + BitVec.ofNat 32 (32 * j)) =
      fileProghdr content j := by
  have page := kernel.headers
  refine Proghdr.read_congr fun i small => ?_
  have here : elfhdr + (fileElf content).ePhoff + BitVec.ofNat 32 (32 * j) + BitVec.ofNat 32 i =
      elfhdr + BitVec.ofNat 32 ((fileElf content).ePhoff.toNat + 32 * j + i) := by
    rw [address_add, BitVec.add_assoc]
    congr 1
    bv_omega
  have there : ((fileElf content).ePhoff + BitVec.ofNat 32 (32 * j) + BitVec.ofNat 32 i).toNat =
      (fileElf content).ePhoff.toNat + 32 * j + i := by bv_omega
  rw [here, headers _ (by omega), fileBytes, there]

theorem load_run (holds : HoldsFile content disk) {fuel : Nat} (enough : 2 ^ 23 + 1 ≤ fuel)
    {eph : BitVec 32} (last : eph = elfhdr + (fileElf content).ePhoff +
      BitVec.ofNat 32 (32 * (fileElf content).ePhnum.toNat)) {k j : Nat}
    (left : j + k = (fileElf content).ePhnum.toNat) (headers : HasHeaders content m)
    (loaded : ∀ i, i < j → (fileProghdr content i).Loaded content m) :
    ∃ m', Loop.run (bootPass fuel disk eph) (k + 1)
        (elfhdr + (fileElf content).ePhoff + BitVec.ofNat 32 (32 * j), m) = some (some m') ∧
      HasHeaders content m' ∧
        ∀ i, i < (fileElf content).ePhnum.toNat → (fileProghdr content i).Loaded content m' := by
  have here := header_address kernel (show j ≤ (fileElf content).ePhnum.toNat by omega)
  have ended := header_address kernel (le_refl (fileElf content).ePhnum.toNat)
  rw [← last] at ended
  induction k generalizing j m with
  | zero =>
      have pass : bootPass fuel disk eph
          (elfhdr + (fileElf content).ePhoff + BitVec.ofNat 32 (32 * j), m) = .leave (some m) :=
        if_neg (by rw [BitVec.lt_def, here, ended]; omega)
      exact ⟨m, Loop.run_leave pass 0, headers, fun i bound => loaded i (by omega)⟩
  | succ k ih =>
      have bound : j < (fileElf content).ePhnum.toNat := by omega
      obtain ⟨next, read, segment, frame⟩ :=
        segment_loaded (m := m) (kernel.loadable j bound) holds enough
      have pass : bootPass fuel disk eph
          (elfhdr + (fileElf content).ePhoff + BitVec.ofNat 32 (32 * j), m) =
            .again (elfhdr + (fileElf content).ePhoff + BitVec.ofNat 32 (32 * (j + 1)), next) := by
        have more : elfhdr + (fileElf content).ePhoff + BitVec.ofNat 32 (32 * j) < eph := by
          rw [BitVec.lt_def, here, ended]
          omega
        have step : elfhdr + (fileElf content).ePhoff + BitVec.ofNat 32 (32 * j) + sizeofProghdr =
            elfhdr + (fileElf content).ePhoff + BitVec.ofNat 32 (32 * (j + 1)) := address_add _ _ 32
        simp only [bootPass, if_pos more, header_read kernel headers bound, read, step]
      rw [Loop.run_again pass]
      refine ih (by omega) (fun i small => ?_) (fun i less => ?_)
        (header_address kernel (by omega))
      · -- The page with the headers is out of reach of the segment.
        rw [frame _ fun within => (kernel.loadable j bound).page _ within ?_]
        · exact headers i small
        · have : (elfhdr + BitVec.ofNat 32 i).toNat = 0x10000 + i := by
            unfold elfhdr
            bv_omega
          unfold InHeaderPage
          omega
      · rcases Nat.lt_succ_iff_lt_or_eq.mp less with before | rfl
        · -- So are the segments loaded before it.
          have fits := (kernel.loadable i (by omega)).fits
          intro n range
          have address := address_toNat (a := (fileProghdr content i).pVa) (i := n) (by omega)
          rw [frame _ fun within => kernel.apart j i bound (by omega) (by omega) _ within ?_]
          · exact loaded i before n range
          · unfold Proghdr.InRange
            omega
        · exact segment

theorem bootmain_loads (holds : HoldsFile content disk) {fuel : Nat} (enough : 2 ^ 23 + 1 ≤ fuel) :
    ∃ m', bootmain fuel disk m = some (.jumped (fileElf content).eEntry m') ∧
      ∀ j, j < (fileElf content).ePhnum.toNat → (fileProghdr content j).Loaded content m' := by
  obtain ⟨page, read, headers⟩ := headers_read (m := m) holds enough
  have elf {m : Bytes} (headers : HasHeaders content m) : Elf.read m elfhdr = fileElf content := by
    refine Elf.read_congr fun i small => ?_
    rw [headers i (by omega), fileBytes]
    congr 1
    bv_omega
  have many := (fileElf content).ePhnum.isLt
  have last : elfhdr + (fileElf content).ePhoff +
      sizeofProghdr * (fileElf content).ePhnum.setWidth 32 =
        elfhdr + (fileElf content).ePhoff +
          BitVec.ofNat 32 (32 * (fileElf content).ePhnum.toNat) := by
    congr 1
  obtain ⟨m', run, kept, loaded⟩ := load_run (j := 0) kernel holds enough last (Nat.zero_add _)
    headers (fun i none => absurd none (Nat.not_lt_zero i))
  have first : elfhdr + (fileElf content).ePhoff + BitVec.ofNat 32 (32 * 0) =
      elfhdr + (fileElf content).ePhoff := BitVec.add_zero _
  rw [first] at run
  have longer := Loop.run_mono (show (fileElf content).ePhnum.toNat + 1 ≤ fuel by omega) _ _ run
  refine ⟨m', ?_, loaded⟩
  unfold bootmain
  simp only [read, Option.bind_eq_bind, Option.bind_some, elf headers, kernel.magic, ne_eq,
    not_true_eq_false, if_false]
  rw [longer, Option.join_some, Option.bind_some, elf kept]
  rfl

end Load

theorem boot_reads_back {fuel : Nat} {writes : Nat → WriteResult} {ulongMax : Nat}
    {files : List Byte → Option (List Byte)} {bootName kernelName boot content : List Byte}
    (bootFile : files bootName = some boot) (small : boot.length ≤ 510)
    (kernelFile : files kernelName = some content)
    (plain : skipDirective ulongMax kernelName = none)
    {nsectors : Nat} {o : Output}
    (made : mkbootdisk fuel writes ulongMax files [bootName, kernelName] .empty =
      some (.ok (nsectors, o)))
    {disk : Nat → Byte} (holds : ∀ i, i < o.written.length → disk i = o.written.getD i 0)
    (kernel : LoadableKernel content) (m : Bytes) :
    ∃ fuel m', bootmain fuel disk m = some (.jumped (fileElf content).eEntry m') ∧
      ∀ j, j < (fileElf content).ePhnum.toNat → (fileProghdr content j).Loaded content m' :=
  ⟨2 ^ 23 + 1, bootmain_loads kernel
    (image_holds small (mkbootdisk_two bootFile small kernelFile plain made) holds) le_rfl⟩

def tinyKernel : List Byte :=
  [0x7F, 0x45, 0x4C, 0x46] ++ List.replicate 20 0 ++ [0x54, 0, 0x10, 0] ++ [52, 0, 0, 0] ++
    List.replicate 12 0 ++ [1, 0] ++ List.replicate 6 0 ++ [1, 0, 0, 0] ++ [0x54, 0, 0, 0] ++
      [0x54, 0, 0x10, 0] ++ [0, 0, 0, 0] ++ [4, 0, 0, 0] ++ [8, 0, 0, 0] ++ List.replicate 8 0 ++
        [0xF4, 0xEB, 0xFD, 0x90]

theorem tinyKernel_loadable : LoadableKernel tinyKernel := by
  have phnum : (fileElf tinyKernel).ePhnum.toNat = 1 := by decide
  have va : (fileProghdr tinyKernel 0).pVa.toNat = 0x100054 := by decide
  have offset : (fileProghdr tinyKernel 0).pOffset.toNat = 0x54 := by decide
  have filesz : (fileProghdr tinyKernel 0).pFilesz.toNat = 4 := by decide
  have memsz : (fileProghdr tinyKernel 0).pMemsz.toNat = 8 := by decide
  refine ⟨by decide, by decide, fun j bound => ?_, fun i j first second other => by omega⟩
  obtain rfl : j = 0 := by omega
  refine ⟨?_, ?_, ?_, ?_, ?_, fun x inside page => ?_⟩
  · rw [va, offset]
  · rw [filesz, memsz]
    decide
  · rw [offset, filesz]
    decide
  · rw [va, memsz]
    decide
  · rw [va, filesz]
    decide
  · have low := inside.1
    have high := page.2
    rw [va, sectorStart] at low
    omega

theorem boot_reads_back_tiny : ∃ fuel disk m',
    bootmain fuel disk (fun _ => 0) = some (.jumped 0x100054 m') ∧
      (fileProghdr tinyKernel 0).Loaded tinyKernel m' := by
  let files : List Byte → Option (List Byte) := fun name =>
    if name = [chr 'k'] then some tinyKernel else some []
  have bootFile : files [chr 'b'] = some [] := rfl
  have kernelFile : files [chr 'k'] = some tinyKernel := rfl
  have plain : skipDirective 0xFFFFFFFF [chr 'k'] = none := rfl
  have small : ([] : List Byte).length ≤ 510 := by decide
  obtain ⟨image, documented⟩ := diskImage_exists small (goesForward_files [tinyKernel])
  have read : [[chr 'k']].map (diskArgument 0xFFFFFFFF files) = [some (.file tinyKernel)] := rfl
  obtain ⟨nsectors, o, run, -⟩ :=
    mkbootdisk_makes takesAll_progress bootFile small documented read
  obtain ⟨_, made⟩ := run.some_fuel
  have held : ∀ i, i < o.written.length → (fun i => o.written.getD i 0) i = o.written.getD i 0 :=
    fun _ _ => rfl
  have entry : (fileElf tinyKernel).eEntry = 0x100054 := by decide
  have one : 0 < (fileElf tinyKernel).ePhnum.toNat := by decide
  obtain ⟨fuel, m', booted, loaded⟩ := boot_reads_back bootFile small kernelFile plain made
    held tinyKernel_loadable fun _ => 0
  rw [entry] at booted
  exact ⟨fuel, _, m', booted, loaded 0 one⟩

end SchedOS
