import SchedOS.Kernel.Loader

set_option autoImplicit false

namespace SchedOS

namespace RamImage

variable (image : RamImage) (m : Bytes)

def Contains (x : BitVec 32) : Prop := image.begin_.toNat ≤ x.toNat ∧ x.toNat < image.end_.toNat

def elf : Elf := Elf.read m image.begin_

def header (j : Nat) : Proghdr :=
  Proghdr.read m (image.begin_ + (image.elf m).ePhoff + BitVec.ofNat 32 (32 * j))

def Loads (j : Nat) : Prop :=
  j < (image.elf m).ePhnum.toNat ∧ (image.header m j).pType = elfProgLoad

instance : DecidablePred (image.Loads m) := fun _ => inferInstanceAs (Decidable (_ ∧ _))

end RamImage

/-- An image whose headers lie in it, and whose segments are aligned as ELF asks for and keep away
from the image and from each other. -/
structure LoadableImage (image : RamImage) (m : Bytes) : Prop where
  magic : (image.elf m).eMagic = elfMagic
  elf : image.begin_.toNat + 52 ≤ image.end_.toNat
  headers : image.begin_.toNat + (image.elf m).ePhoff.toNat +
    32 * (image.elf m).ePhnum.toNat ≤ image.end_.toNat
  aligned : ∀ j, image.Loads m j →
    (image.header m j).pVa.toNat % 4096 = (image.header m j).pOffset.toNat % 4096
  sizes : ∀ j, image.Loads m j →
    (image.header m j).pFilesz.toNat ≤ (image.header m j).pMemsz.toNat
  inside : ∀ j, image.Loads m j → image.begin_.toNat + (image.header m j).pOffset.toNat +
    (image.header m j).pFilesz.toNat ≤ image.end_.toNat
  fits : ∀ j, image.Loads m j →
    (image.header m j).pVa.toNat + (image.header m j).pMemsz.toNat < 2 ^ 32
  apart : ∀ i j, image.Loads m i → image.Loads m j → i ≠ j →
    ∀ x, (image.header m i).InSegment x → ¬ (image.header m j).InSegment x
  away : ∀ j, image.Loads m j → ∀ x, (image.header m j).InSegment x → ¬ image.Contains x

def InEntry (entryPoint x : BitVec 32) : Prop := (x - entryPoint).toNat < 4

instance (entryPoint : BitVec 32) : DecidablePred (InEntry entryPoint) := fun _ => Nat.decLt _ _

/-- The loader has done what its headers ask for, and nothing else. -/
structure LoadsExactly (image : RamImage) (entryPoint : BitVec 32) (m m' : Bytes) : Prop where
  loaded : ∀ j, image.Loads m j → ∀ i, i < (image.header m j).pMemsz.toNat →
    ¬ InEntry entryPoint ((image.header m j).pVa + BitVec.ofNat 32 i) →
      m' ((image.header m j).pVa + BitVec.ofNat 32 i) =
        if i < (image.header m j).pFilesz.toNat then
          m (image.begin_ + (image.header m j).pOffset + BitVec.ofNat 32 i)
        else 0
  frame : ∀ x, (∀ j, image.Loads m j → ¬ (image.header m j).InSegment x) →
    ¬ InEntry entryPoint x → m' x = m x
  entry : read32 m' entryPoint = (image.elf m).eEntry

/-- Rounding the segments down to pages does not bring them into the way of the image or of what
is copied. -/
structure PagesApart (image : RamImage) (m : Bytes) : Prop where
  away : ∀ j, image.Loads m j → ∀ x, (image.header m j).InPages x → ¬ image.Contains x
  sources : ∀ i j, image.Loads m i → image.Loads m j →
    ∀ x, (image.header m i).InPages x → ¬ (image.header m j).InSource image.begin_ x

structure Belongs (image : RamImage) (m : Bytes) (x : BitVec 32) (b : Byte) : Prop where
  segment : ∀ j, image.Loads m j → (image.header m j).InSegment x →
    b = if x.toNat < (image.header m j).pVa.toNat + (image.header m j).pFilesz.toNat then
        m (image.begin_ + (image.header m j).pOffset +
          BitVec.ofNat 32 (x.toNat - (image.header m j).pVa.toNat))
      else 0
  rest : (∀ j, image.Loads m j → ¬ (image.header m j).InSegment x) → b = m x

def LastAt (image : RamImage) (m : Bytes) (x : BitVec 32) (j : Nat) : Prop :=
  image.Loads m j ∧ (image.header m j).InPages x ∧
    ∀ k, j < k → image.Loads m k → ¬ (image.header m k).InPages x

/-- What is copied to an unaligned segment, from the start of its page on, belongs where it comes
to lie. -/
def Harmless (image : RamImage) (entryPoint : BitVec 32) (m : Bytes) : Prop :=
  ∀ j x, LastAt image m x j → (image.header m j).pageOffset ≠ 0 → ¬ InEntry entryPoint x →
    x.toNat < (image.header m j).pVa.toNat + (image.header m j).pFilesz.toNat →
      Belongs image m x (m (image.begin_ + (image.header m j).pOffset +
        BitVec.ofNat 32 (x.toNat - ((image.header m j).pVa.toNat - (image.header m j).pageOffset))))

section Load

variable {image : RamImage} {m : Bytes}

def placed (image : RamImage) (m : Bytes) (ph : Proghdr) (x : BitVec 32) : Byte :=
  if ph.pVa.toNat + ph.pFilesz.toNat ≤ x.toNat then 0
  else m (image.begin_ + ph.pOffset + BitVec.ofNat 32 (x.toNat - (ph.pVa.toNat - ph.pageOffset)))

structure LoadedUpto (image : RamImage) (m : Bytes) (j : Nat) (now : Bytes) : Prop where
  pages : ∀ i, i < j → image.Loads m i → ∀ x, (image.header m i).InPages x →
    (∀ k, i < k → k < j → image.Loads m k → ¬ (image.header m k).InPages x) →
      now x = placed image m (image.header m i) x
  frame : ∀ x, (∀ i, i < j → image.Loads m i → ¬ (image.header m i).InPages x) → now x = m x

theorem LoadedUpto.image_kept {j : Nat} {now : Bytes} (loaded : LoadedUpto image m j now)
    (pages : PagesApart image m) {x : BitVec 32} (inside : image.Contains x) : now x = m x :=
  loaded.frame x fun i _ loads within => pages.away i loads x within inside

theorem Proghdr.inPages_of_inSegment {ph : Proghdr} {x : BitVec 32} (inside : ph.InSegment x) :
    ph.InPages x :=
  ⟨(Nat.sub_le _ _).trans inside.1, inside.2⟩

theorem Proghdr.inSegment_of_aligned {ph : Proghdr} (aligned : ph.pageOffset = 0) {x : BitVec 32}
    (inside : ph.InPages x) : ph.InSegment x := by
  obtain ⟨low, high⟩ := inside
  rw [aligned] at low
  exact ⟨low, high⟩

theorem lastAt_or_none (image : RamImage) (m : Bytes) (x : BitVec 32) :
    (∃ j, LastAt image m x j) ∨ ∀ j, image.Loads m j → ¬ (image.header m j).InPages x := by
  classical
  by_cases some : ∃ j, image.Loads m j ∧ (image.header m j).InPages x
  · obtain ⟨i, loads, inside⟩ := some
    let Over j := image.Loads m j ∧ (image.header m j).InPages x
    have found : Over (Nat.findGreatest Over (image.elf m).ePhnum.toNat) :=
      Nat.findGreatest_spec loads.1.le ⟨loads, inside⟩
    refine .inl ⟨_, found.1, found.2, fun k later loads' within => ?_⟩
    exact Nat.findGreatest_is_greatest later loads'.1.le ⟨loads', within⟩
  · exact .inr fun j loads inside => some ⟨j, loads, inside⟩

variable (loadable : LoadableImage image m)

include loadable

theorem imageHeader_address {j : Nat} (bound : j ≤ (image.elf m).ePhnum.toNat) :
    (image.begin_ + (image.elf m).ePhoff + BitVec.ofNat 32 (32 * j)).toNat =
      image.begin_.toNat + (image.elf m).ePhoff.toNat + 32 * j := by
  have headers := loadable.headers
  have whole := image.end_.isLt
  bv_omega

-- The headers that the loop finds are those of the image before it.
theorem imageHeader_read {j : Nat} {now : Bytes} (loaded : LoadedUpto image m j now)
    (pages : PagesApart image m) (bound : j < (image.elf m).ePhnum.toNat) :
    Proghdr.read now (image.begin_ + (image.elf m).ePhoff + BitVec.ofNat 32 (32 * j)) =
      image.header m j := by
  have headers := loadable.headers
  have whole := image.end_.isLt
  have here := imageHeader_address loadable (show j ≤ (image.elf m).ePhnum.toNat by omega)
  refine Proghdr.read_congr fun i small => loaded.image_kept pages ?_
  have address := address_toNat (i := i)
    (a := image.begin_ + (image.elf m).ePhoff + BitVec.ofNat 32 (32 * j)) (by omega)
  unfold RamImage.Contains
  omega

theorem LoadedUpto.step {j : Nat} {now : Bytes} (loaded : LoadedUpto image m j now)
    (pages : PagesApart image m) (bound : j < (image.elf m).ePhnum.toNat) :
    LoadedUpto image m (j + 1)
      (if (image.header m j).pType = elfProgLoad then
        copyseg (image.header m j).pVa (image.begin_ + (image.header m j).pOffset)
          (image.header m j).pFilesz (image.header m j).pMemsz now
      else now) := by
  by_cases load : (image.header m j).pType = elfProgLoad
  · rw [if_pos load]
    have loads : image.Loads m j := ⟨bound, load⟩
    have get := copyseg_get (loadable.sizes j loads) (loadable.fits j loads)
      (pages.sources j j loads loads) now
    refine ⟨fun i less other x inside last => ?_, fun x away => ?_⟩
    · rw [get x]
      rcases Nat.lt_succ_iff_lt_or_eq.mp less with before | rfl
      · rw [if_neg (last j before (Nat.lt_succ_self j) loads)]
        exact loaded.pages i before other x inside fun k later sooner =>
          last k later (Nat.lt_succ_of_lt sooner)
      · rw [if_pos inside, placed]
        split
        · rfl
        next file =>
          -- No segment before this one has changed what it copies.
          refine loaded.frame _ fun k less loads' within =>
            pages.sources k i loads' other _ within ?_
          have most : (image.header m i).pageOffset ≤ (image.header m i).pVa.toNat := Nat.mod_le _ _
          have low := inside.1
          have whole := x.isLt
          unfold Proghdr.InSource
          rw [add_sub_cancel_left, BitVec.toNat_ofNat, Nat.mod_eq_of_lt (by omega)]
          omega
    · rw [get x, if_neg (away j (Nat.lt_succ_self j) loads)]
      exact loaded.frame x fun i less => away i (Nat.lt_succ_of_lt less)
  · rw [if_neg load]
    refine ⟨fun i less other x inside last => ?_, fun x away => ?_⟩
    · rcases Nat.lt_succ_iff_lt_or_eq.mp less with before | rfl
      · exact loaded.pages i before other x inside fun k later sooner =>
          last k later (Nat.lt_succ_of_lt sooner)
      · exact absurd other.2 load
    · exact loaded.frame x fun i less => away i (Nat.lt_succ_of_lt less)

theorem loader_run {k j : Nat} (left : j + k = (image.elf m).ePhnum.toNat) (now : Bytes)
    (loaded : PagesApart image m → LoadedUpto image m j now) :
    ∃ last, Loop.run (loaderPass image.begin_ (image.begin_ + (image.elf m).ePhoff +
          BitVec.ofNat 32 (32 * (image.elf m).ePhnum.toNat))) (k + 1)
        (image.begin_ + (image.elf m).ePhoff + BitVec.ofNat 32 (32 * j), now) = some last ∧
      (PagesApart image m → LoadedUpto image m (image.elf m).ePhnum.toNat last) := by
  have here := imageHeader_address loadable (show j ≤ (image.elf m).ePhnum.toNat by omega)
  have ended := imageHeader_address loadable (le_refl (image.elf m).ePhnum.toNat)
  generalize image.begin_ + (image.elf m).ePhoff +
    BitVec.ofNat 32 (32 * (image.elf m).ePhnum.toNat) = eph at ended ⊢
  induction k generalizing j now with
  | zero =>
      obtain rfl : j = (image.elf m).ePhnum.toNat := by omega
      have leaves : loaderPass image.begin_ eph (image.begin_ + (image.elf m).ePhoff +
          BitVec.ofNat 32 (32 * (image.elf m).ePhnum.toNat), now) = .leave now :=
        if_neg (by rw [BitVec.lt_def, here, ended]; omega)
      exact ⟨now, Loop.run_leave leaves 0, loaded⟩
  | succ k ih =>
      have bound : j < (image.elf m).ePhnum.toNat := by omega
      have more : image.begin_ + (image.elf m).ePhoff + BitVec.ofNat 32 (32 * j) < eph := by
        rw [BitVec.lt_def, here, ended]
        omega
      have step : image.begin_ + (image.elf m).ePhoff + BitVec.ofNat 32 (32 * j) + sizeofProghdr =
          image.begin_ + (image.elf m).ePhoff + BitVec.ofNat 32 (32 * (j + 1)) :=
        address_add _ _ 32
      rw [Loop.run_again (loaderPass_again image.begin_ now more), step]
      refine ih (by omega) _ (fun pages => ?_) (imageHeader_address loadable (by omega))
      rw [imageHeader_read loadable (loaded pages) pages bound]
      exact (loaded pages).step loadable pages bound

theorem belongs_of_inSegment {j : Nat} (loads : image.Loads m j) {x : BitVec 32}
    (inside : (image.header m j).InSegment x) {b : Byte}
    (byte : b = if x.toNat < (image.header m j).pVa.toNat + (image.header m j).pFilesz.toNat then
        m (image.begin_ + (image.header m j).pOffset +
          BitVec.ofNat 32 (x.toNat - (image.header m j).pVa.toNat))
      else 0) : Belongs image m x b := by
  refine ⟨fun i other within => ?_, fun outside => absurd inside (outside j loads)⟩
  rcases eq_or_ne i j with rfl | ne
  · exact byte
  · exact absurd inside (loadable.apart i j other loads ne x within)

theorem loaded_belongs_iff {last : Bytes}
    (loaded : LoadedUpto image m (image.elf m).ePhnum.toNat last) (entryPoint : BitVec 32) :
    (∀ x, ¬ InEntry entryPoint x → Belongs image m x (last x)) ↔ Harmless image entryPoint m := by
  have placed_at {j : Nat} {x : BitVec 32} (at_ : LastAt image m x j) :
      last x = placed image m (image.header m j) x :=
    loaded.pages j at_.1.1 at_.1 x at_.2.1 fun k later _ => at_.2.2 k later
  constructor
  · intro belongs j x at_ unaligned outside file
    have byte := belongs x outside
    rwa [placed_at at_, placed, if_neg (by omega)] at byte
  · intro harmless x outside
    rcases lastAt_or_none image m x with ⟨j, at_⟩ | none
    · rw [placed_at at_, placed]
      have inside := at_.2.1
      by_cases bss : (image.header m j).pVa.toNat + (image.header m j).pFilesz.toNat ≤ x.toNat
      · rw [if_pos bss]
        refine belongs_of_inSegment loadable at_.1 ⟨by omega, inside.2⟩ ?_
        rw [if_neg (by omega)]
      · rw [if_neg bss]
        by_cases aligned : (image.header m j).pageOffset = 0
        · refine belongs_of_inSegment loadable at_.1
            (Proghdr.inSegment_of_aligned aligned inside) ?_
          rw [if_pos (by omega), aligned, Nat.sub_zero]
        · exact harmless j x at_ aligned outside (by omega)
    · have outsideAll : ∀ j, image.Loads m j → ¬ (image.header m j).InSegment x :=
        fun j loads within => none j loads (Proghdr.inPages_of_inSegment within)
      rw [loaded.frame x fun j _ loads => none j loads]
      exact ⟨fun j loads within => absurd within (outsideAll j loads), fun _ => rfl⟩

theorem loadsExactly_iff (entryPoint : BitVec 32) (m' : Bytes) :
    LoadsExactly image entryPoint m m' ↔
      (∀ x, ¬ InEntry entryPoint x → Belongs image m x (m' x)) ∧
        read32 m' entryPoint = (image.elf m).eEntry := by
  constructor
  · intro exactly
    refine ⟨fun x outside => ⟨fun j loads inside => ?_, fun none => exactly.frame x none outside⟩,
      exactly.entry⟩
    have fits := loadable.fits j loads
    have low := inside.1
    have address : (image.header m j).pVa +
        BitVec.ofNat 32 (x.toNat - (image.header m j).pVa.toNat) = x := by
      apply BitVec.eq_of_toNat_eq
      rw [address_toNat (by omega)]
      omega
    have byte := exactly.loaded j loads (x.toNat - (image.header m j).pVa.toNat)
      (by have := inside.2; omega) (by rwa [address])
    rw [address] at byte
    rw [byte]
    exact if_congr (by omega) rfl rfl
  · rintro ⟨belongs, entry⟩
    refine ⟨fun j loads i bound outside => ?_, fun x none outside => (belongs x outside).rest none,
      entry⟩
    have fits := loadable.fits j loads
    have address := address_toNat (a := (image.header m j).pVa) (i := i) (by omega)
    have byte := (belongs _ outside).segment j loads ⟨by omega, by omega⟩
    rw [byte, address, Nat.add_sub_cancel_left]
    exact if_congr (by omega) rfl rfl

end Load

theorem program_loader_run {ramimages : List RamImage} {programId : Int} {image : RamImage}
    (nonnegative : 0 ≤ programId) (known : ramimages[programId.toNat]? = some image) {m : Bytes}
    (loadable : LoadableImage image m) (entryPoint : BitVec 32) :
    ∃ fuel last, programLoader fuel ramimages programId entryPoint m =
        some (.returned (write32 entryPoint (Elf.read last image.begin_).eEntry last)) ∧
      (PagesApart image m → LoadedUpto image m (image.elf m).ePhnum.toNat last) := by
  have start : PagesApart image m → LoadedUpto image m 0 m := fun _ =>
    ⟨fun i less => absurd less (Nat.not_lt_zero i), fun x _ => rfl⟩
  obtain ⟨last, run, loaded⟩ := loader_run loadable (Nat.zero_add _) m start
  have first : image.begin_ + (image.elf m).ePhoff + BitVec.ofNat 32 (32 * 0) =
      image.begin_ + (image.elf m).ePhoff := BitVec.add_zero _
  have many := (image.elf m).ePhnum.isLt
  have ended : image.begin_ + (image.elf m).ePhoff +
      sizeofProghdr * (image.elf m).ePhnum.setWidth 32 =
        image.begin_ + (image.elf m).ePhoff +
          BitVec.ofNat 32 (32 * (image.elf m).ePhnum.toNat) := by
    congr 1
  rw [first] at run
  refine ⟨(image.elf m).ePhnum.toNat + 1, last, ?_, loaded⟩
  have magic : ¬ (Elf.read m image.begin_).eMagic ≠ elfMagic := not_not.mpr loadable.magic
  unfold programLoader
  rw [if_neg (by omega), known]
  simp only [if_neg magic]
  change Option.map _ (Loop.run (loaderPass image.begin_ (image.begin_ + (image.elf m).ePhoff +
    sizeofProghdr * (image.elf m).ePhnum.setWidth 32)) _ _) = _
  rw [ended]
  exact congrArg (Option.map _) run

theorem LoadedUpto.elf_kept {image : RamImage} {m last : Bytes} {j : Nat}
    (loaded : LoadedUpto image m j last) (pages : PagesApart image m)
    (loadable : LoadableImage image m) : Elf.read last image.begin_ = image.elf m := by
  have inside := loadable.elf
  have whole := image.end_.isLt
  refine Elf.read_congr fun i small => loaded.image_kept pages ?_
  have address := address_toNat (a := image.begin_) (i := i) (by omega)
  unfold RamImage.Contains
  omega

theorem pagesApart_of_aligned {image : RamImage} {m : Bytes} (loadable : LoadableImage image m)
    (aligned : ∀ j, image.Loads m j → (image.header m j).pageOffset = 0) : PagesApart image m := by
  have away : ∀ j, image.Loads m j → ∀ x, (image.header m j).InPages x → ¬ image.Contains x :=
    fun j loads x inside =>
      loadable.away j loads x (Proghdr.inSegment_of_aligned (aligned j loads) inside)
  refine ⟨away, fun i j loads loads' x inside source => away i loads x inside ?_⟩
  have within := loadable.inside j loads'
  have whole := image.end_.isLt
  unfold Proghdr.InSource at source
  rw [aligned j loads'] at source
  unfold RamImage.Contains
  bv_omega

theorem loadsExactly_iff_harmless {image : RamImage} {m last : Bytes}
    (loadable : LoadableImage image m) (pages : PagesApart image m)
    (loaded : LoadedUpto image m (image.elf m).ePhnum.toNat last) (entryPoint : BitVec 32) :
    LoadsExactly image entryPoint m
        (write32 entryPoint (Elf.read last image.begin_).eEntry last) ↔
      Harmless image entryPoint m := by
  have entry := read32_write32 entryPoint (Elf.read last image.begin_).eEntry last
  have kept := congrArg Elf.eEntry (loaded.elf_kept pages loadable)
  rw [loadsExactly_iff loadable, ← loaded_belongs_iff loadable loaded entryPoint,
    and_iff_left (entry.trans kept)]
  refine forall_congr' fun x => forall_congr' fun outside => ?_
  rw [write32_get _ _ _ outside]

theorem loadsExactly_of_aligned {image : RamImage} {m last : Bytes}
    (loadable : LoadableImage image m)
    (aligned : ∀ j, image.Loads m j → (image.header m j).pVa.toNat % 4096 = 0)
    (loaded : PagesApart image m → LoadedUpto image m (image.elf m).ePhnum.toNat last)
    (entryPoint : BitVec 32) :
    LoadsExactly image entryPoint m
      (write32 entryPoint (Elf.read last image.begin_).eEntry last) := by
  have pages := pagesApart_of_aligned loadable aligned
  refine (loadsExactly_iff_harmless loadable pages (loaded pages) entryPoint).mpr
    fun j x at_ unaligned => ?_
  exact absurd (aligned j at_.1) unaligned

theorem program_loader_aligned {ramimages : List RamImage} {programId : Int} {image : RamImage}
    (nonnegative : 0 ≤ programId) (known : ramimages[programId.toNat]? = some image) {m : Bytes}
    (loadable : LoadableImage image m)
    (aligned : ∀ j, image.Loads m j → (image.header m j).pVa.toNat % 4096 = 0)
    (entryPoint : BitVec 32) :
    ∃ fuel m', programLoader fuel ramimages programId entryPoint m = some (.returned m') ∧
      LoadsExactly image entryPoint m m' := by
  obtain ⟨fuel, last, run, loaded⟩ := program_loader_run nonnegative known loadable entryPoint
  exact ⟨fuel, _, run, loadsExactly_of_aligned loadable aligned loaded entryPoint⟩

theorem program_loader_exact_iff {ramimages : List RamImage} {programId : Int} {image : RamImage}
    (nonnegative : 0 ≤ programId) (known : ramimages[programId.toNat]? = some image) {m : Bytes}
    (loadable : LoadableImage image m) (entryPoint : BitVec 32) :
    ∃ fuel m', programLoader fuel ramimages programId entryPoint m = some (.returned m') ∧
      ((∀ j, image.Loads m j → (image.header m j).pVa.toNat % 4096 = 0) →
        LoadsExactly image entryPoint m m') ∧
      (PagesApart image m →
        (LoadsExactly image entryPoint m m' ↔ Harmless image entryPoint m)) := by
  obtain ⟨fuel, last, run, loaded⟩ := program_loader_run nonnegative known loadable entryPoint
  exact ⟨fuel, _, run, fun aligned => loadsExactly_of_aligned loadable aligned loaded entryPoint,
    fun pages => loadsExactly_iff_harmless loadable pages (loaded pages) entryPoint⟩

section Tiny

def tinyImage (start : Byte) : List Byte :=
  [0x7F, 0x45, 0x4C, 0x46] ++ List.replicate 20 0 ++ [start, 0, 0x20, 0] ++ [52, 0, 0, 0] ++
    List.replicate 12 0 ++ [1, 0] ++ List.replicate 6 0 ++ [1, 0, 0, 0] ++ [start, 0, 0, 0] ++
      [start, 0, 0x20, 0] ++ [0, 0, 0, 0] ++ [4, 0, 0, 0] ++ [8, 0, 0, 0] ++ List.replicate 8 0 ++
        [0xF4, 0xEB, 0xFD, 0x90]

def tinyMemory (start : Byte) : Bytes := fun x => (tinyImage start).getD (x - 0x110000).toNat 0

def tinyRam : RamImage := { begin_ := 0x110000, end_ := 0x110058 }

variable {start : Byte}

theorem tinyRam_header (which : start = 0 ∨ start = 0x54) :
    (tinyRam.elf (tinyMemory start)).ePhnum.toNat = 1 ∧
      (tinyRam.header (tinyMemory start) 0).pVa = 0x200000 + start.setWidth 32 ∧
        (tinyRam.header (tinyMemory start) 0).pOffset = start.setWidth 32 ∧
          (tinyRam.header (tinyMemory start) 0).pFilesz = 4 ∧
            (tinyRam.header (tinyMemory start) 0).pMemsz = 8 := by
  rcases which with rfl | rfl
  · decide
  · decide

theorem tinyRam_only (which : start = 0 ∨ start = 0x54) {j : Nat}
    (loads : tinyRam.Loads (tinyMemory start) j) : j = 0 := by
  have less := loads.1
  have one := (tinyRam_header which).1
  omega

theorem tinyRam_pages (which : start = 0 ∨ start = 0x54) {x : BitVec 32}
    (inside : (tinyRam.header (tinyMemory start) 0).InPages x) :
    0x200000 ≤ x.toNat ∧ x.toNat < 0x200060 := by
  obtain ⟨-, va, -, -, memsz⟩ := tinyRam_header which
  obtain ⟨low, high⟩ := inside
  rw [Proghdr.pageOffset, va] at low
  rw [va, memsz] at high
  rcases which with rfl | rfl
  · change 0x200000 - 0x200000 % 4096 ≤ _ at low
    change _ < 0x200000 + 8 at high
    omega
  · change 0x200054 - 0x200054 % 4096 ≤ _ at low
    change _ < 0x200054 + 8 at high
    omega

theorem tinyRam_loadable (which : start = 0 ∨ start = 0x54) :
    LoadableImage tinyRam (tinyMemory start) := by
  obtain ⟨phnum, va, offset, filesz, memsz⟩ := tinyRam_header which
  have headers : (tinyRam.elf (tinyMemory start)).eMagic = elfMagic ∧
      (tinyRam.elf (tinyMemory start)).ePhoff.toNat = 52 := by
    rcases which with rfl | rfl
    · decide
    · decide
  have small : start.toNat ≤ 84 := by
    rcases which with rfl | rfl
    · decide
    · decide
  refine ⟨headers.1, by decide, ?_, fun j loads => ?_, fun j loads => ?_, fun j loads => ?_,
    fun j loads => ?_, fun i j first second ne => absurd
      ((tinyRam_only which first).trans (tinyRam_only which second).symm) ne,
    fun j loads x inside within => ?_⟩
  · rw [headers.2, phnum]
    decide
  · obtain rfl := tinyRam_only which loads
    rw [va, offset]
    bv_omega
  · obtain rfl := tinyRam_only which loads
    rw [filesz, memsz]
    decide
  · obtain rfl := tinyRam_only which loads
    rw [offset, filesz]
    change 0x110000 + _ + 4 ≤ 0x110058
    bv_omega
  · obtain rfl := tinyRam_only which loads
    rw [va, memsz]
    bv_omega
  · obtain rfl := tinyRam_only which loads
    have pages := tinyRam_pages which (Proghdr.inPages_of_inSegment inside)
    have image : x.toNat < 0x110058 := within.2
    omega

theorem program_loader_exact_page : ∃ fuel m',
    programLoader fuel [tinyRam] 0 0x300000 (tinyMemory 0) = some (.returned m') ∧
      LoadsExactly tinyRam 0x300000 (tinyMemory 0) m' := by
  obtain ⟨fuel, m', run, exactly, -⟩ := program_loader_exact_iff (le_refl 0)
    (show [tinyRam][(0 : Int).toNat]? = some tinyRam from rfl)
    (tinyRam_loadable (.inl rfl)) 0x300000
  refine ⟨fuel, m', run, exactly fun j loads => ?_⟩
  obtain rfl := tinyRam_only (.inl rfl) loads
  decide

theorem tinyRam_pagesApart : PagesApart tinyRam (tinyMemory 0x54) := by
  have which : (0x54 : Byte) = 0 ∨ (0x54 : Byte) = 0x54 := .inr rfl
  have source : (tinyRam.header (tinyMemory 0x54) 0).pOffset = 0x54 ∧
      (tinyRam.header (tinyMemory 0x54) 0).pageOffset +
        (tinyRam.header (tinyMemory 0x54) 0).pFilesz.toNat = 88 := by
    decide
  refine ⟨fun j loads x inside within => ?_, fun i j first second x inside within => ?_⟩
  · obtain rfl := tinyRam_only which loads
    have pages := tinyRam_pages which inside
    have image : x.toNat < 0x110058 := within.2
    omega
  · obtain rfl := tinyRam_only which first
    obtain rfl := tinyRam_only which second
    have pages := tinyRam_pages which inside
    rw [Proghdr.InSource, source.1, source.2] at within
    change (x - (0x110000 + 0x54)).toNat < 88 at within
    bv_omega

-- The segment starts in the middle of a page: the bytes behind the image are loaded.
theorem program_loader_misplaces : LoadableImage tinyRam (tinyMemory 0x54) ∧ ∃ fuel m',
    programLoader fuel [tinyRam] 0 0x300000 (tinyMemory 0x54) = some (.returned m') ∧
      ¬ LoadsExactly tinyRam 0x300000 (tinyMemory 0x54) m' := by
  have loadable := tinyRam_loadable (.inr (Eq.refl (0x54 : Byte)))
  obtain ⟨fuel, last, run, loaded⟩ := program_loader_run (le_refl 0)
    (show [tinyRam][(0 : Int).toNat]? = some tinyRam from rfl) loadable 0x300000
  refine ⟨loadable, fuel, _, run, fun exactly => ?_⟩
  have harmless := (loadsExactly_iff_harmless loadable tinyRam_pagesApart
    (loaded tinyRam_pagesApart) 0x300000).mp exactly
  have loads : tinyRam.Loads (tinyMemory 0x54) 0 := by decide
  have first : LastAt tinyRam (tinyMemory 0x54) 0x200054 0 := by
    refine ⟨loads, by decide, fun k later loads' => ?_⟩
    have zero := tinyRam_only (.inr (Eq.refl (0x54 : Byte))) loads'
    omega
  have byte := (harmless 0 0x200054 first (by decide) (by decide) (by decide)).segment 0 loads
    (by decide)
  exact absurd byte (by decide)

end Tiny

end SchedOS
