import SchedOS.Hardware.InMemory
import SchedOS.Kernel.LoadExact

set_option autoImplicit false

namespace SchedOS

open Memory (Holds)

namespace Link

variable (link : Link)

-- `start()` up to the loop over the processes, without the port writes.
def prepare (m : Bytes) : Bytes :=
  let m := write32 link.numTickets 0 m
  let m := link.segmentsInit m
  let m := link.consoleClear m
  link.clearTable m

def start (fuel : Nat) (m : Bytes) : Option LoaderResult :=
  link.initProcs fuel (List.range' 1 (nprocs - 1)) (link.prepare m)

def InData (x : BitVec 32) : Prop := ∃ v, link.In v x

/-- The linker puts the variables and the images below the processes, and keeps them apart. -/
structure Apart : Prop where
  disjoint : link.Disjoint
  programs : link.ramimages.length = nprocs - 1
  low : ∀ x, link.InData x → x.toNat < proc1Start.toNat
  images : ∀ image ∈ link.ramimages, image.end_.toNat ≤ proc1Start.toNat
  away : ∀ image ∈ link.ramimages, ∀ x, image.Contains x → ¬ link.InData x

structure Represents (m : Bytes) (k : Kernel) : Prop where
  table : link.Table m k.procArray
  numTickets : Holds m link.numTickets (wordBytes (BitVec.ofNat 32 k.numTickets))
  cursorpos : Holds m link.cursorpos (wordBytes k.cursorpos)
  lock : Holds m link.lock (wordBytes k.lock)
  screen : Holds m consoleBegin
    (((List.range (80 * 25)).map fun i => k.cells (cell i)).flatMap halfBytes)

end Link

structure Placed (k : Nat) (image : RamImage) (m : Bytes) : Prop where
  loadable : LoadableImage image m
  aligned : ∀ j, image.Loads m j → (image.header m j).pVa.toNat % 4096 = 0
  own : ∀ j, image.Loads m j → ∀ x, (image.header m j).InSegment x →
    proc1Start.toNat + k * procSize.toNat ≤ x.toNat ∧
      x.toNat < proc1Start.toNat + (k + 1) * procSize.toNat

def InPlace (image : RamImage) (m now : Bytes) : Prop :=
  ∀ j, image.Loads m j → ∀ i, i < (image.header m j).pMemsz.toNat →
    now ((image.header m j).pVa + BitVec.ofNat 32 i) =
      if i < (image.header m j).pFilesz.toNat then
        m (image.begin_ + (image.header m j).pOffset + BitVec.ofNat 32 i)
      else 0

section Congr

variable {image : RamImage} {m now : Bytes} (loadable : LoadableImage image m)
  (same : ∀ x, image.Contains x → now x = m x)
include loadable same

theorem RamImage.elf_congr : image.elf now = image.elf m := by
  have inside := loadable.elf
  have whole := image.end_.isLt
  refine Elf.read_congr fun i small => same _ ?_
  have address := address_toNat (a := image.begin_) (i := i) (by omega)
  unfold RamImage.Contains
  omega

theorem RamImage.header_congr {j : Nat} (bound : j < (image.elf m).ePhnum.toNat) :
    image.header now j = image.header m j := by
  have headers := loadable.headers
  have whole := image.end_.isLt
  have here := imageHeader_address loadable (show j ≤ (image.elf m).ePhnum.toNat by omega)
  rw [RamImage.header, RamImage.elf_congr loadable same]
  refine Proghdr.read_congr fun i small => same _ ?_
  have address := address_toNat (i := i)
    (a := image.begin_ + (image.elf m).ePhoff + BitVec.ofNat 32 (32 * j)) (by omega)
  unfold RamImage.Contains
  omega

theorem RamImage.loads_congr {j : Nat} : image.Loads now j ↔ image.Loads m j := by
  unfold RamImage.Loads
  rw [RamImage.elf_congr loadable same]
  refine and_congr_right fun bound => ?_
  rw [RamImage.header_congr loadable same bound]

theorem LoadableImage.congr : LoadableImage image now := by
  have elf := RamImage.elf_congr loadable same
  have loads {j : Nat} (loads : image.Loads now j) : image.Loads m j :=
    (RamImage.loads_congr loadable same).mp loads
  have header {j : Nat} (loads : image.Loads m j) : image.header now j = image.header m j :=
    RamImage.header_congr loadable same loads.1
  refine ⟨elf ▸ loadable.magic, loadable.elf, elf ▸ loadable.headers, fun j now' => ?_,
    fun j now' => ?_, fun j now' => ?_, fun j now' => ?_, fun i j first second ne => ?_,
    fun j now' => ?_⟩
  · rw [header (loads now')]; exact loadable.aligned j (loads now')
  · rw [header (loads now')]; exact loadable.sizes j (loads now')
  · rw [header (loads now')]; exact loadable.inside j (loads now')
  · rw [header (loads now')]; exact loadable.fits j (loads now')
  · rw [header (loads first), header (loads second)]
    exact loadable.apart i j (loads first) (loads second) ne
  · rw [header (loads now')]; exact loadable.away j (loads now')

theorem InPlace.congr {last : Bytes} (program : InPlace image now last) : InPlace image m last := by
  intro j here i bound
  have header := RamImage.header_congr loadable same here.1
  have byte := program j ((RamImage.loads_congr loadable same).mpr here) i
  rw [header] at byte
  rw [byte bound]
  split_ifs with file
  · refine same _ ?_
    have source := loadable.inside j here
    have whole := image.end_.isLt
    unfold RamImage.Contains
    bv_omega
  · rfl

end Congr

theorem Placed.congr {k : Nat} {image : RamImage} {m now : Bytes} (placed : Placed k image m)
    (same : ∀ x, image.Contains x → now x = m x) : Placed k image now := by
  have loads {j : Nat} := RamImage.loads_congr (j := j) placed.loadable same
  refine ⟨placed.loadable.congr same, fun j now' => ?_, fun j now' => ?_⟩
  all_goals
    have here := loads.mp now'
    rw [RamImage.header_congr placed.loadable same here.1]
  · exact placed.aligned j here
  · exact placed.own j here

section Fuel

variable {fuel more : Nat} (le : fuel ≤ more)
include le

theorem programLoader_mono {ramimages : List RamImage} {programId : Int} {entryPoint : BitVec 32}
    {m : Bytes} {result : LoaderResult}
    (ended : programLoader fuel ramimages programId entryPoint m = some result) :
    programLoader more ramimages programId entryPoint m = some result := by
  unfold programLoader at ended ⊢
  split_ifs at ended ⊢ with negative
  · exact ended
  cases known : ramimages[programId.toNat]? with
  | none => rwa [known] at ended
  | some image =>
      simp only [known] at ended ⊢
      split_ifs at ended ⊢ with magic
      · exact ended
      obtain ⟨last, run, returned⟩ := Option.map_eq_some_iff.mp ended
      rw [Loop.run_mono le _ _ run]
      exact congrArg some returned

theorem Link.initProc_mono {link : Link} {i : Nat} {m : Bytes} {result : LoaderResult}
    (ended : link.initProc fuel i m = some result) : link.initProc more i m = some result := by
  obtain ⟨loaded, run, returned⟩ := Option.map_eq_some_iff.mp ended
  rw [initProc, programLoader_mono le run]
  exact congrArg some returned

theorem Link.initProcs_mono {link : Link} {l : List Nat} {m : Bytes} {result : LoaderResult}
    (ended : link.initProcs fuel l m = some result) : link.initProcs more l m = some result := by
  induction l generalizing m with
  | nil => exact ended
  | cons i l ih =>
      rw [initProcs] at ended ⊢
      cases first : link.initProc fuel i m with
      | none =>
          rw [first] at ended
          cases ended
      | some stop =>
          rw [Link.initProc_mono le first]
          rw [first] at ended
          cases stop with
          | returned next => exact ih ended
          | panicked next => exact ended

end Fuel

theorem holds_read32 (m : Bytes) (a : BitVec 32) : Holds m a (wordBytes (read32 m a)) := by
  have first : wordBytes (read32 m a) = [m a, m (a + 1), m (a + 2), m (a + 3)] := by
    have b0 := (m a).isLt
    have b1 := (m (a + 1)).isLt
    have b2 := (m (a + 2)).isLt
    simp only [wordBytes, read32, List.cons.injEq, and_true]
    refine ⟨?_, ?_, ?_, ?_⟩
    all_goals
      apply BitVec.eq_of_toNat_eq
      simp only [BitVec.toNat_setWidth, BitVec.toNat_ushiftRight, append_toNat,
        Nat.shiftRight_eq_div_pow]
      omega
  intro i bound
  simp only [first] at bound ⊢
  have less : i < 4 := bound
  interval_cases i
  next => exact congrArg m (BitVec.add_zero a)
  next => rfl
  next => rfl
  next => rfl

def Boot.cleared (boot : Boot) : Kernel :=
  (List.range nprocs).foldl Kernel.clearProc
    { { boot.memory with rngs := Rngs.static } with numTickets := 0 }.consoleClear

structure LoadedAll (link : Link) (boot : Boot) (m : Bytes) (n : Nat) (now : Bytes) : Prop where
  table : link.Table now ((List.range' 1 n).foldl boot.initProc boot.cleared).procArray
  lock : 0 < n → Holds now link.lock (wordBytes 0)
  programs : ∀ k, k < n → ∀ image, link.ramimages[k]? = some image → InPlace image m now
  frame : ∀ x, ¬ link.In .procArray x → ¬ link.In .lock x →
    (∀ k, k < n → ∀ image, link.ramimages[k]? = some image →
      ∀ j, image.Loads m j → ¬ (image.header m j).InSegment x) → now x = m x

section Loading

variable {link : Link} {boot : Boot} {m now : Bytes} {n : Nat} (apart : link.Apart)
  (placed : ∀ k image, link.ramimages[k]? = some image → Placed k image m)

theorem Link.Table.congr {procs : Nat → Process} {next : Bytes} (table : link.Table now procs)
    (same : link.Keeps .procArray now next) : link.Table next procs :=
  same.elements le_rfl (fun i => bytes_length (procs i)) table

theorem Link.inTable_entry {i : Nat} {x : BitVec 32} (inside : i < nprocs)
    (entry : InEntry (link.regEip i) x) : link.In .procArray x := by
  by_contra outside
  have away := Memory.offset_outside (x := x) (k := sizeofProcess * i + 4 * 13) (n := 4)
    (show sizeofProcess * nprocs ≤ (x - link.procArray).toNat from Nat.le_of_not_lt outside)
    (by unfold sizeofProcess nprocs at *; omega)
  rw [InEntry, Link.regEip, Link.proc, address_add] at entry
  omega

theorem LoadsExactly.table {image : RamImage} {i : Nat} (inside : i < nprocs)
    (loads : LoadsExactly image (link.regEip i) m now)
    (high : ∀ j, image.Loads m j → ∀ x, (image.header m j).InSegment x → ¬ link.In .procArray x)
    {procs : Nat → Process} {p : Process} (table : link.Table m (Function.update procs i p)) :
    link.Table now (Function.update procs i
      { p with pRegisters := { p.pRegisters with regEip := (image.elf m).eEntry } }) := by
  have entered := table.write32 inside (n := 13) (v := (image.elf m).eEntry)
    (q := { p with pRegisters := { p.pRegisters with regEip := (image.elf m).eEntry } })
    (by decide) rfl
  refine entered.congr fun x within => ?_
  by_cases entry : InEntry (link.regEip i) x
  · have stored : Holds (write32 (link.regEip i) (image.elf m).eEntry m) (link.regEip i)
        (wordBytes (image.elf m).eEntry) :=
      Memory.holds_store (show 4 < 2 ^ 32 by decide) m _
    have read := holds_read32 now (link.regEip i)
    rw [loads.entry] at read
    exact (read.read entry).trans (stored.read entry).symm
  · rw [loads.frame x (fun j here segment => high j here x segment within) entry]
    exact (write32_get _ _ _ entry).symm

theorem stored_kept {i : Nat} (inside : i < nprocs) {x : BitVec 32} (table : ¬ link.In .procArray x)
    (lock : ¬ link.In .lock x) (m : Bytes) :
    write32 link.lock 0 (write32 (link.pState i) 1 m) x = m x := by
  refine (write32_get _ _ _ lock).trans ?_
  exact Link.write32_frame inside (Nat.le_of_not_lt table) (by decide) _ _

theorem inSegment_offset {image : RamImage} (loadable : LoadableImage image m) {j : Nat}
    (loads : image.Loads m j) {i : Nat} (bound : i < (image.header m j).pMemsz.toNat) :
    (image.header m j).InSegment ((image.header m j).pVa + BitVec.ofNat 32 i) := by
  have fits := loadable.fits j loads
  have address := address_toNat (a := (image.header m j).pVa) (i := i) (by omega)
  unfold Proghdr.InSegment
  omega

theorem LoadsExactly.inPlace {image : RamImage} {entryPoint : BitVec 32} {last : Bytes}
    (loads : LoadsExactly image entryPoint now last) (loadable : LoadableImage image now)
    (away : ∀ j, image.Loads now j → ∀ x, (image.header now j).InSegment x →
      ¬ InEntry entryPoint x) :
    InPlace image now last :=
  fun j here i bound =>
    loads.loaded j here i bound (away j here _ (inSegment_offset loadable here bound))

theorem table_stored {k : Kernel} {i : Nat} (inside : i < nprocs)
    (away : ∀ x, link.In .procArray x → ¬ link.In .lock x)
    (table : link.Table now (Function.update k.procArray i
      { k.procArray i with
        pRegisters := { specialRegistersInit with
          regEsp := proc1Start + BitVec.ofNat 32 i * procSize
          regEip := boot.entryPoint (i - 1) }
        pShare := 1
        pTimePassed := 0
        pPriority := 1 })) :
    link.Table (write32 link.lock 0 (write32 (link.pState i) 1 now))
      (boot.initProc k i).procArray := by
  let p : Process := (boot.initProc k i).procArray i
  have process : (boot.initProc k i).procArray = Function.update k.procArray i p := by
    funext j
    by_cases same : j = i
    · rw [same, Function.update_self]
    · rw [Function.update_of_ne same]
      exact Function.update_of_ne same _ _
  have runnable := table.write32 inside (n := 18) (v := 1) (q := p) (by decide) (by
    simp only [p, Boot.initProc, Kernel.setProc_self]
    rfl)
  rw [process]
  exact runnable.congr fun x within => write32_get _ _ _ (away x within)

include apart

theorem Placed.high {k : Nat} {image : RamImage} (program : Placed k image m) {j : Nat}
    (loads : image.Loads m j) {x : BitVec 32} (inside : (image.header m j).InSegment x)
    (v : Variable) : ¬ link.In v x := fun data => by
  have low := apart.low x ⟨v, data⟩
  have high := (program.own j loads x inside).1
  omega

include placed

-- The loop stores to the descriptors, to the lock and behind the variables.
theorem LoadedAll.keeps (loaded : LoadedAll link boot m n now) {v : Variable}
    (other : v ≠ .procArray ∧ v ≠ .lock) : link.Keeps v m now := by
  intro x inside
  refine loaded.frame x (apart.disjoint v .procArray other.1 x inside)
    (apart.disjoint v .lock other.2 x inside) fun k _ image known j loads segment => ?_
  exact (placed k image known).high apart loads segment v inside

theorem LoadedAll.image_kept (loaded : LoadedAll link boot m n now) {image : RamImage}
    (member : image ∈ link.ramimages) {x : BitVec 32} (inside : image.Contains x) :
    now x = m x := by
  have outside := apart.away image member x inside
  refine loaded.frame x (fun table => outside ⟨_, table⟩) (fun lock => outside ⟨_, lock⟩)
    fun k _ other known j loads within => ?_
  have high := ((placed k other known).own j loads x within).1
  have low := apart.images image member
  have last := inside.2
  omega

theorem LoadedAll.pass (entries : ∀ k image, link.ramimages[k]? = some image →
      boot.entryPoint k = (image.elf m).eEntry)
    (loaded : LoadedAll link boot m n now) (more : n < nprocs - 1) {image : RamImage}
    (known : link.ramimages[n]? = some image) :
    ∃ fuel next, link.initProc fuel (n + 1) now = some (.returned next) ∧
      link.Table next ((List.range' 1 (n + 1)).foldl boot.initProc boot.cleared).procArray ∧
      Holds next link.lock (wordBytes 0) ∧ InPlace image m next ∧
      ∀ x, ¬ link.In .procArray x → ¬ link.In .lock x →
        (∀ j, image.Loads m j → ¬ (image.header m j).InSegment x) → next x = now x := by
  have inside : n + 1 < nprocs := by
    unfold nprocs at *
    omega
  have member := List.mem_of_getElem? known
  have program := placed n image known
  have described (x : BitVec 32) (outside : ¬ link.In .procArray x) :
      link.describe (n + 1) now x = now x :=
    Link.describe_frame inside (Nat.le_of_not_lt outside) now
  -- What the loader finds of the image is what was there at first.
  have same (x : BitVec 32) (within : image.Contains x) :
      link.describe (n + 1) now x = m x := by
    rw [described x fun table => apart.away image member x within ⟨_, table⟩]
    exact loaded.image_kept apart placed member within
  have there : Placed n image (link.describe (n + 1) now) := program.congr same
  have elf := RamImage.elf_congr program.loadable same
  have loads {j : Nat} : image.Loads (link.describe (n + 1) now) j ↔ image.Loads m j :=
    RamImage.loads_congr program.loadable same
  have header {j : Nat} (loads : image.Loads m j) :
      image.header (link.describe (n + 1) now) j = image.header m j :=
    RamImage.header_congr program.loadable same loads.1
  have index : (((n + 1 : Nat) : Int) - 1).toNat = n := by omega
  obtain ⟨fuel, last, run, exactly⟩ := program_loader_aligned (by omega)
    (show link.ramimages[(((n + 1 : Nat) : Int) - 1).toNat]? = some image by rw [index, known])
    there.loadable there.aligned (link.regEip (n + 1))
  have high (j : Nat) (here : image.Loads (link.describe (n + 1) now) j) (x : BitVec 32)
      (segment : (image.header (link.describe (n + 1) now) j).InSegment x) :
      ¬ link.In .procArray x := there.high apart here segment .procArray
  refine ⟨fuel, write32 link.lock 0 (write32 (link.pState (n + 1)) 1 last),
    congrArg (Option.map _) run, ?_, Memory.holds_store (show 4 < 2 ^ 32 by decide) _ _,
    fun j here i bound => ?_, fun x table lock none => ?_⟩
  · have table := exactly.table inside high (Link.Table.described link inside loaded.table)
    rw [elf, ← entries n image known] at table
    rw [List.range'_1_concat, List.foldl_append, Nat.add_comm 1 n, List.foldl_cons, List.foldl_nil]
    exact table_stored inside (apart.disjoint .procArray .lock (by decide)) table
  · have outside := program.high apart here (inSegment_offset program.loadable here bound)
    rw [stored_kept inside (outside _) (outside _)]
    exact (exactly.inPlace there.loadable
      fun j' here' x segment entry => high j' here' x segment
        (Link.inTable_entry inside entry)).congr program.loadable same j here i bound
  · rw [stored_kept inside table lock, exactly.frame x ?_ fun entry =>
      table (Link.inTable_entry inside entry), described x table]
    intro j here segment
    rw [header (loads.mp here)] at segment
    exact none j (loads.mp here) segment

theorem LoadedAll.step (entries : ∀ k image, link.ramimages[k]? = some image →
      boot.entryPoint k = (image.elf m).eEntry)
    (loaded : LoadedAll link boot m n now) (more : n < nprocs - 1) :
    ∃ fuel next, link.initProc fuel (n + 1) now = some (.returned next) ∧
      LoadedAll link boot m (n + 1) next := by
  have position : n < link.ramimages.length := apart.programs.symm ▸ more
  obtain ⟨image, known⟩ : ∃ image, link.ramimages[n]? = some image :=
    ⟨_, List.getElem?_eq_getElem position⟩
  obtain ⟨fuel, next, run, table, lock, program, kept⟩ :=
    loaded.pass apart placed entries more known
  refine ⟨fuel, next, run, table, fun _ => lock, ?_, fun x table lock none => ?_⟩
  · intro k less other knownOther
    rcases Nat.lt_succ_iff_lt_or_eq.mp less with before | rfl
    · intro j here i bound
      have segment := inSegment_offset (placed k other knownOther).loadable here bound
      have outside := (placed k other knownOther).high apart here segment
      rw [kept _ (outside _) (outside _) fun j' here' segment' => ?_]
      · exact loaded.programs k before other knownOther j here i bound
      · have first := ((placed k other knownOther).own j here _ segment).2
        have second := ((placed n image known).own j' here' _ segment').1
        have order : (k + 1) * procSize.toNat ≤ n * procSize.toNat :=
          Nat.mul_le_mul_right _ before
        omega
    · obtain rfl : image = other := Option.some.inj (known.symm.trans knownOther)
      exact program
  · rw [kept x table lock (none n (Nat.lt_succ_self n) image known)]
    exact loaded.frame x table lock fun k less => none k (Nat.lt_succ_of_lt less)

theorem LoadedAll.run (entries : ∀ k image, link.ramimages[k]? = some image →
      boot.entryPoint k = (image.elf m).eEntry) {left : Nat}
    (loaded : LoadedAll link boot m n now) (all : n + left = nprocs - 1) :
    ∃ fuel next, link.initProcs fuel (List.range' (n + 1) left) now = some (.returned next) ∧
      LoadedAll link boot m (nprocs - 1) next := by
  induction left generalizing n now with
  | zero => exact ⟨0, now, rfl, all ▸ loaded⟩
  | succ left ih =>
      obtain ⟨first, next, pass, after⟩ := loaded.step apart placed entries (by omega)
      obtain ⟨rest, last, passes, done⟩ := ih after (by omega)
      refine ⟨max first rest, last, ?_, done⟩
      rw [List.range'_succ, Link.initProcs, Link.initProc_mono (le_max_left first rest) pass]
      exact Link.initProcs_mono (le_max_right first rest) passes

end Loading

section Start

variable {link : Link} {boot : Boot} {m : Bytes}

def blank : BitVec 16 := 0x20 ||| 0x0700

theorem screen_length (n : Nat) :
    ((List.replicate n blank).flatMap halfBytes).length = 2 * n := by
  rw [Memory.length_flatMap_encode halfBytes_length, List.length_replicate]

theorem consoleClear_eq (disjoint : link.Disjoint) (m : Bytes) : link.consoleClear m =
    Memory.store consoleBegin ((List.replicate (80 * 25) blank).flatMap halfBytes)
      (write32 link.cursorpos consoleBegin m) := by
  let m₀ := write32 link.cursorpos consoleBegin m
  have screen {n : Nat} (few : n ≤ 80 * 25) : link.Changes [.screen] m₀
      (Memory.store consoleBegin ((List.replicate n blank).flatMap halfBytes) m₀) :=
    Link.changes_start (v := .screen) (by
      rw [screen_length]
      exact Nat.mul_le_mul_left 2 few) m₀
  have upto (n : Nat) (few : n ≤ 80 * 25) :
      (List.range n).foldl (fun m i =>
        write16 (read32 m link.cursorpos + 2 * BitVec.ofNat 32 i) (0x20 ||| 0x0700) m) m₀ =
        Memory.store consoleBegin ((List.replicate n blank).flatMap halfBytes) m₀ := by
    induction n with
    | zero => rfl
    | succ n ih =>
        have keeps : link.Keeps .cursorpos m₀ _ :=
          (screen (Nat.le_of_succ_le few)).keeps disjoint (by decide)
        have cursor : _ = read32 m₀ link.cursorpos := keeps.read32 (by decide)
        rw [List.range_succ, List.foldl_append, ih (Nat.le_of_succ_le few), List.replicate_succ',
          List.flatMap_append, Memory.store_append, screen_length, BitVec.ofNat_mul,
          List.foldl_cons, List.foldl_nil]
        refine congrArg (fun a => write16 (a + _) _ _) (cursor.trans ?_)
        exact read32_write32 _ _ _
  exact upto (80 * 25) le_rfl

structure Link.Prepared (link : Link) (m next : Bytes) : Prop where
  numTickets : Holds next link.numTickets (wordBytes 0)
  tables : ∀ h, link.Tables m h → link.Tables next (SchedOS.segmentsInit link.symbols h).busy
  cursorpos : Holds next link.cursorpos (wordBytes consoleBegin)
  screen : Holds next consoleBegin ((List.replicate (80 * 25) blank).flatMap halfBytes)
  table : link.Table next fun i => { Process.zero with pPid := i }
  frame : ∀ x, ¬ link.InData x → next x = m x

theorem Link.prepared (disjoint : link.Disjoint) (m : Bytes) :
    link.Prepared m (link.prepare m) := by
  let screen := (List.replicate (80 * 25) blank).flatMap halfBytes
  let m₁ := write32 link.numTickets 0 m
  let m₂ := link.segmentsInit m₁
  let m₃ := write32 link.cursorpos consoleBegin m₂
  let m₄ := Memory.store consoleBegin screen m₃
  have prepare : link.prepare m = link.clearTable m₄ :=
    congrArg link.clearTable (consoleClear_eq disjoint m₂)
  have short : screen.length < 2 ^ 32 := by rw [screen_length]; decide
  have first : link.Changes [.numTickets] m m₁ := changes_start le_rfl m
  have second : link.Changes _ m₁ m₂ := segmentsInit_changes m₁
  have third : link.Changes [.cursorpos] m₂ m₃ := changes_start le_rfl m₂
  have fourth : link.Changes [.screen] m₃ m₄ := changes_start (screen_length _).le m₃
  have fifth : link.Changes _ m₄ (link.clearTable m₄) := link.clearTable_changes m₄
  have after := (third.trans fourth).trans fifth
  rw [prepare]
  refine ⟨?_, fun h tables => ?_, ?_, ?_, link.table_cleared m₄, fun x outside => ?_⟩
  · have keeps : link.Keeps .numTickets m₁ _ := (second.trans after).keeps disjoint (by decide)
    exact keeps.holds_start le_rfl (Memory.holds_store (show 4 < 2 ^ 32 by decide) m _)
  · have before {v : Variable} (other : v ∉ [.numTickets]) : link.Keeps v m m₁ :=
      first.keeps disjoint other
    have stored := segmentsInit_tables disjoint (tables.kept (before (by decide))
      (before (by decide)) (before (by decide)))
    exact stored.kept (after.keeps disjoint (by decide)) (after.keeps disjoint (by decide))
      (after.keeps disjoint (by decide))
  · have keeps : link.Keeps .cursorpos m₃ _ := (fourth.trans fifth).keeps disjoint (by decide)
    exact keeps.holds_start le_rfl (Memory.holds_store (show 4 < 2 ^ 32 by decide) m₂ _)
  · have keeps : link.Keeps .screen m₄ _ := fifth.keeps disjoint (by decide)
    exact keeps.holds_start (screen_length _).le (Memory.holds_store short m₃ _)
  · exact (first.trans (second.trans after)) x fun v _ inside => outside ⟨v, inside⟩

theorem kernel_cells (boot : Boot) :
    (List.range (80 * 25)).map (fun i => boot.kernel.cells (cell i)) =
      List.replicate (80 * 25) blank := by
  have upto (cells : BitVec 32 → BitVec 16) (n i : Nat) (less : i < n) :
      (List.range n).foldl (fun cells i => Function.update cells (cell i) (0x20 ||| 0x0700)) cells
        (cell i) = blank := by
    induction n with
    | zero => exact absurd less (Nat.not_lt_zero i)
    | succ n ih =>
        rw [List.range_succ, List.foldl_append, List.foldl_cons, List.foldl_nil]
        by_cases last : cell i = cell n
        · rw [last, Function.update_self]
          rfl
        · have before : i < n := by
            rcases Nat.lt_succ_iff_lt_or_eq.mp less with before | rfl
            · exact before
            · exact absurd rfl last
          rw [Function.update_of_ne last, ih before]
  rw [List.eq_replicate_iff]
  refine ⟨by rw [List.length_map, List.length_range], fun value member => ?_⟩
  obtain ⟨i, inside, rfl⟩ := List.mem_map.mp member
  have loops (k : Kernel) : ((List.range' 1 (nprocs - 1)).foldl boot.initProc
      ((List.range nprocs).foldl Kernel.clearProc k)).cells = k.cells := rfl
  have same : boot.kernel.cells = boot.table.cells := by
    simp only [Boot.kernel, start, Machine.kernel, Kernel.run]
  rw [same, Boot.table]
  simp only [loops, Kernel.consoleClear]
  exact upto _ _ i (List.mem_range.mp inside)

/-- `start()` loads the programs of its four images, each into the memory of its own process, and
makes the variables and the screen what the machine starts with. Nothing else changes. -/
theorem start_loads (apart : link.Apart)
    (placed : ∀ k image, link.ramimages[k]? = some image → Placed k image m)
    (entries : ∀ k image, link.ramimages[k]? = some image →
      boot.entryPoint k = (image.elf m).eEntry) :
    ∃ fuel m', link.start fuel m = some (.returned m') ∧ link.Represents m' boot.kernel ∧
      (∀ h, link.Tables m h → link.Tables m' (segmentsInit link.symbols h).busy) ∧
      (∀ (k : Nat) (image : RamImage), link.ramimages[k]? = some image → InPlace image m m') ∧
      ∀ x, ¬ link.InData x → (∀ (k : Nat) (image : RamImage), link.ramimages[k]? = some image →
        ∀ j, image.Loads m j → ¬ (image.header m j).InSegment x) → m' x = m x := by
  have prepared := Link.prepared apart.disjoint m
  have same {k : Nat} {image : RamImage} (known : link.ramimages[k]? = some image)
      (x : BitVec 32) (within : image.Contains x) : link.prepare m x = m x :=
    prepared.frame x (apart.away image (List.mem_of_getElem? known) x within)
  have placed' (k : Nat) (image : RamImage) (known : link.ramimages[k]? = some image) :
      Placed k image (link.prepare m) := (placed k image known).congr (same known)
  have none {k : Nat} {image : RamImage} (known : link.ramimages[k]? = some image) {j : Nat}
      (loads : image.Loads (link.prepare m) j) : image.Loads m j ∧
        image.header (link.prepare m) j = image.header m j := by
    have here := (RamImage.loads_congr (placed k image known).loadable (same known)).mp loads
    exact ⟨here, RamImage.header_congr (placed k image known).loadable (same known) here.1⟩
  have start : LoadedAll link boot (link.prepare m) 0 (link.prepare m) := by
    refine ⟨?_, fun none => absurd none (Nat.lt_irrefl 0),
      fun k none => absurd none (Nat.not_lt_zero k), fun _ _ _ _ => rfl⟩
    intro i inside
    have cleared := prepared.table i inside
    unfold nprocs at inside
    interval_cases i <;> exact cleared
  obtain ⟨fuel, m', run, loaded⟩ := start.run apart placed' (fun k image known => by
    rw [entries k image known, RamImage.elf_congr (placed k image known).loadable (same known)])
    (Nat.zero_add _)
  have few {k : Nat} {image : RamImage} (known : link.ramimages[k]? = some image) :
      k < nprocs - 1 := by
    rw [← apart.programs]
    exact (List.getElem?_eq_some_iff.mp known).1
  have keeps (v : Variable) (other : v ≠ .procArray ∧ v ≠ .lock) :
      link.Keeps v (link.prepare m) m' := loaded.keeps apart placed' other
  refine ⟨fuel, m', run, ⟨loaded.table, ?_, ?_, loaded.lock (by decide), ?_⟩, fun h tables => ?_,
    fun k image known => ?_, fun x outside segments => ?_⟩
  · exact (keeps .numTickets (by decide)).holds_start le_rfl prepared.numTickets
  · exact (keeps .cursorpos (by decide)).holds_start le_rfl prepared.cursorpos
  · rw [kernel_cells]
    exact (keeps .screen (by decide)).holds_start (screen_length _).le prepared.screen
  · exact (prepared.tables h tables).kept (keeps _ (by decide)) (keeps _ (by decide))
      (keeps _ (by decide))
  · exact (loaded.programs k (few known) image known).congr (placed k image known).loadable
      (same known)
  · refine (loaded.frame x (fun table => outside ⟨_, table⟩) (fun lock => outside ⟨_, lock⟩)
      fun k _ image known j loads segment => ?_).trans (prepared.frame x outside)
    obtain ⟨here, header⟩ := none known loads
    exact segments k image known j here (header ▸ segment)

end Start

section Programs

def programImage (k : Nat) : List Byte :=
  [0x7F, 0x45, 0x4C, 0x46] ++ List.replicate 20 0 ++ [0, 0, BitVec.ofNat 8 (32 + 16 * k), 0] ++
    [52, 0, 0, 0] ++ List.replicate 12 0 ++ [1, 0] ++ List.replicate 6 0 ++ [1, 0, 0, 0] ++
      [0, 0, 0, 0] ++ [0, 0, BitVec.ofNat 8 (32 + 16 * k), 0] ++ [0, 0, 0, 0] ++ [4, 0, 0, 0] ++
        [8, 0, 0, 0] ++ List.replicate 8 0

def programMemory : Bytes := fun x =>
  (programImage ((x.toNat - 0x110000) / 0x1000)).getD ((x.toNat - 0x110000) % 0x1000) 0

def programRam (k : Nat) : RamImage :=
  { begin_ := BitVec.ofNat 32 (0x110000 + 0x1000 * k)
    end_ := BitVec.ofNat 32 (0x110000 + 0x1000 * k + 84) }

def programLink : Link :=
  { symbols := ⟨0x107400, 0x100100, fun i => 0x100200 + 16 * BitVec.ofNat 32 i, 0x100300⟩
    segments := 0x107500
    interruptDescriptors := 0x107600
    procArray := 0x107138
    numTickets := 0x108000
    cursorpos := 0x198000
    lock := 0x198004
    ramimages := (List.range 4).map programRam }

theorem programLink_image {k : Nat} {image : RamImage}
    (known : programLink.ramimages[k]? = some image) : k < 4 ∧ image = programRam k := by
  obtain ⟨inside, entry⟩ := List.getElem?_eq_some_iff.mp known
  have less : k < 4 := inside.trans_eq (by simp [programLink])
  refine ⟨less, ?_⟩
  rw [← entry]
  simp [programLink]

theorem programRam_elf {k : Nat} (four : k < 4) :
    ((programRam k).elf programMemory).eMagic = elfMagic ∧
      ((programRam k).elf programMemory).ePhoff.toNat = 52 ∧
      ((programRam k).elf programMemory).ePhnum.toNat = 1 ∧
      ((programRam k).elf programMemory).eEntry = proc1Start + BitVec.ofNat 32 k * procSize := by
  interval_cases k <;> decide

theorem programRam_header {k : Nat} (four : k < 4) :
    ((programRam k).header programMemory 0).pOffset.toNat = 0 ∧
      ((programRam k).header programMemory 0).pVa.toNat = 0x200000 + k * 0x100000 ∧
        ((programRam k).header programMemory 0).pFilesz.toNat = 4 ∧
          ((programRam k).header programMemory 0).pMemsz.toNat = 8 := by
  interval_cases k <;> decide

theorem programRam_ends {k : Nat} (four : k < 4) :
    (programRam k).begin_.toNat = 0x110000 + 0x1000 * k ∧
      (programRam k).end_.toNat = 0x110000 + 0x1000 * k + 84 := by
  interval_cases k <;> decide

theorem programLink_in {v : Variable} {x : BitVec 32} (inside : programLink.In v x) :
    (programLink.place v).toNat ≤ x.toNat ∧
      x.toNat < (programLink.place v).toNat + v.size := by
  have fits : (programLink.place v).toNat + v.size < 2 ^ 32 := by
    cases v <;> decide
  have address : programLink.place v + BitVec.ofNat 32 (x - programLink.place v).toNat = x := by
    rw [BitVec.ofNat_toNat, BitVec.setWidth_eq]
    exact add_sub_cancel _ x
  have less : (x - programLink.place v).toNat < v.size := inside
  have place := address_toNat (a := programLink.place v) (i := (x - programLink.place v).toNat)
    (by omega)
  rw [address] at place
  omega

theorem programLink_apart : programLink.Apart := by
  have order (u v : Variable) (other : u ≠ v) :
      (programLink.place u).toNat + u.size ≤ (programLink.place v).toNat ∨
        (programLink.place v).toNat + v.size ≤ (programLink.place u).toNat := by
    cases u <;> cases v <;> first | exact absurd rfl other | decide
  have low (v : Variable) : (programLink.place v).toNat + v.size ≤ 0x110000 ∨
      0x114000 ≤ (programLink.place v).toNat ∧
        (programLink.place v).toNat + v.size ≤ 0x200000 := by
    cases v <;> decide
  have image {image : RamImage} (member : image ∈ programLink.ramimages) :
      0x110000 ≤ image.begin_.toNat ∧ image.end_.toNat < 0x114000 := by
    obtain ⟨k, inside, rfl⟩ := List.mem_map.mp member
    have four := List.mem_range.mp inside
    obtain ⟨begins, ends⟩ := programRam_ends four
    omega
  refine ⟨fun u v other x inside inside' => ?_, rfl, fun x inside => ?_, fun other member => ?_,
    fun other member x within inside => ?_⟩
  · have first := programLink_in inside
    have second := programLink_in inside'
    have := order u v other
    omega
  · obtain ⟨v, inside⟩ := inside
    have := programLink_in inside
    have := low v
    change _ < 0x200000
    omega
  · have := image member
    change _ ≤ 0x200000
    omega
  · obtain ⟨v, inside⟩ := inside
    have place := image member
    have := programLink_in inside
    have := low v
    unfold RamImage.Contains at within
    omega

theorem programRam_placed {k : Nat} (four : k < 4) : Placed k (programRam k) programMemory := by
  obtain ⟨magic, phoff, phnum, -⟩ := programRam_elf four
  obtain ⟨offset, va, filesz, memsz⟩ := programRam_header four
  obtain ⟨begins, ends⟩ := programRam_ends four
  have only {j : Nat} (loads : (programRam k).Loads programMemory j) : j = 0 := by
    have := loads.1
    omega
  have segment {j : Nat} (loads : (programRam k).Loads programMemory j) {x : BitVec 32}
      (inside : ((programRam k).header programMemory j).InSegment x) :
      0x200000 + k * 0x100000 ≤ x.toNat ∧ x.toNat < 0x200000 + k * 0x100000 + 8 := by
    obtain rfl := only loads
    unfold Proghdr.InSegment at inside
    omega
  refine ⟨⟨magic, by omega, by omega, fun j loads => ?_, fun j loads => ?_, fun j loads => ?_,
    fun j loads => ?_, fun i j first second ne => absurd ((only first).trans (only second).symm) ne,
    fun j loads x inside within => ?_⟩, fun j loads => ?_, fun j loads x inside => ?_⟩
  · obtain rfl := only loads
    omega
  · obtain rfl := only loads
    omega
  · obtain rfl := only loads
    omega
  · obtain rfl := only loads
    omega
  · have := segment loads inside
    unfold RamImage.Contains at within
    omega
  · obtain rfl := only loads
    omega
  · have := segment loads inside
    change 0x200000 + k * 0x100000 ≤ _ ∧ _ < 0x200000 + (k + 1) * 0x100000
    omega

theorem start_loads_four : ∃ fuel m', programLink.start fuel programMemory = some (.returned m') ∧
    m' 0x500000 = 0x7F ∧ m' 0x500004 = 0 ∧ m' (programLink.regEip 4 + 2) = 0x50 ∧
      m' 0x198001 = 0x80 := by
  obtain ⟨fuel, m', run, represents, -, programs, -⟩ := @start_loads programLink (bareBoot 0)
    programMemory programLink_apart
    (fun k image known => by
      obtain ⟨four, rfl⟩ := programLink_image known
      exact programRam_placed four)
    fun k image known => by
      obtain ⟨four, rfl⟩ := programLink_image known
      exact (programRam_elf four).2.2.2.symm
  have last := programs 3 (programRam 3) rfl 0 (by decide)
  have memsz : ((programRam 3).header programMemory 0).pMemsz.toNat = 8 := by decide
  refine ⟨fuel, m', run, ?_, ?_, ?_, ?_⟩
  · exact (last 0 (by rw [memsz]; decide)).trans (by decide)
  · exact (last 4 (by rw [memsz]; decide)).trans (by decide)
  · have held : Holds m' (programLink.proc 4) ((bareBoot 0).kernel.procArray 4).bytes :=
      represents.table 4 (by decide)
    rw [(bareBoot 0).kernel_proc (by decide) (by decide)] at held
    exact (held 54 (by decide)).trans (by decide)
  · exact represents.cursorpos 1 (show 1 < 4 by decide)

end Programs

end SchedOS
