import Mathlib.Data.Nat.Find
import SchedOS.Boot.Arguments

set_option autoImplicit false

namespace SchedOS

open Fuel

def Refused (writes : Nat → WriteResult) (o : Output) : Prop :=
  ∃ last, o.calls = last + 1 ∧ (writes last = .failed ∨ writes last = .wrote 0)

def Cut (writes : Nat → WriteResult) (whole : List Byte) (o o' : Output) : Prop :=
  Refused writes o' ∧ ∃ missing, missing ≠ [] ∧ o'.written ++ missing = o.written ++ whole

def Resumes (writes : Nat → WriteResult) : Prop :=
  ∀ k, ∃ later, k ≤ later ∧ writes later ≠ .interrupted

/-- The image that the arguments stand for, as the program reads them. -/
def ReadsAs (ulongMax : Nat) (files : List Byte → Option (List Byte)) (boot : List Byte)
    (args : List (List Byte)) (image : List Byte) : Prop :=
  ∃ arguments, args.map (diskArgument ulongMax files) = arguments.map some ∧
    DiskImage boot arguments image

def BadArgument (ulongMax : Nat) (files : List Byte → Option (List Byte)) (arg : List Byte)
    (o : Output) : Prop :=
  diskArgument ulongMax files arg = none ∨
    ∃ sector, diskArgument ulongMax files arg = some (.skipTo sector) ∧
      512 * sector < o.written.length

/-- Why the program ends with status 1, and what it has written then. -/
inductive Fails (writes : Nat → WriteResult) (ulongMax : Nat)
    (files : List Byte → Option (List Byte)) : List (List Byte) → Output → Prop
  | start {args : List (List Byte)}
      (bad : ∀ name rest boot, args = name :: rest → files name = some boot → 510 < boot.length) :
      Fails writes ulongMax files args .empty
  | argument {name boot arg : List Byte} {before after : List (List Byte)} {o : Output}
      (bootFile : files name = some boot) (small : boot.length ≤ 510)
      (made : ReadsAs ulongMax files boot before o.written)
      (bad : BadArgument ulongMax files arg o) :
      Fails writes ulongMax files (name :: (before ++ arg :: after)) o
  | write {name boot image missing : List Byte} {before after : List (List Byte)} {o : Output}
      (bootFile : files name = some boot) (small : boot.length ≤ 510)
      (made : ReadsAs ulongMax files boot before image) (refused : Refused writes o)
      (more : missing ≠ []) (written : o.written ++ missing = image) :
      Fails writes ulongMax files (name :: (before ++ after)) o
  | fill {name boot image missing : List Byte} {args : List (List Byte)} {o : Output}
      (bootFile : files name = some boot) (small : boot.length ≤ 510)
      (made : ReadsAs ulongMax files boot args image) (refused : Refused writes o)
      (more : missing ≠ [])
      (written : o.written ++ missing = image ++ zerobuf (512 * 1024 - image.length)) :
      Fails writes ulongMax files (name :: args) o

def Whole (ulongMax : Nat) (files : List Byte → Option (List Byte)) (args : List (List Byte))
    (o : Output) : Prop :=
  ∃ name rest boot image, args = name :: rest ∧ files name = some boot ∧ boot.length ≤ 510 ∧
    ReadsAs ulongMax files boot rest image ∧
    o.written = image ++ zerobuf (512 * 1024 - image.length)

section Cuts

variable {fuel : Nat} {writes : Nat → WriteResult} {data later : List Byte} {o middle o' : Output}

theorem Cut.first (cut : Cut writes data o o') (later : List Byte) :
    Cut writes (data ++ later) o o' := by
  obtain ⟨refused, missing, more, written⟩ := cut
  refine ⟨refused, missing ++ later, List.append_ne_nil_of_left_ne_nil more later, ?_⟩
  rw [← List.append_assoc, written, List.append_assoc]

theorem Cut.second (written : middle.written = o.written ++ data)
    (cut : Cut writes later middle o') : Cut writes (data ++ later) o o' := by
  obtain ⟨refused, missing, more, rest⟩ := cut
  refine ⟨refused, missing, more, ?_⟩
  rw [rest, written, List.append_assoc]

theorem diskwrite_error (ended : diskwrite fuel writes data o = some (.error o')) :
    Cut writes data o o' := by
  obtain ⟨result, left, same⟩ := Option.map_eq_some_iff.mp ended
  have all := Loop.Leaves.post (fun s => s.2.written ++ s.1 = o.written ++ data)
    (fun result => ∀ last, result = .error last → Cut writes data o last)
    ⟨fuel, left⟩ rfl ?_ ?_
  · cases result with
    | ok _ => cases same
    | error last =>
        cases same
        exact all o' rfl
  · rintro ⟨rest, s⟩ next kept pass
    simp only [diskwritePass] at pass
    split at pass
    · split at pass
      · cases pass
        exact kept
      · cases pass
      · split at pass
        · cases pass
        · cases pass
          rwa [List.append_assoc, List.take_append_drop]
    · cases pass
  · rintro ⟨rest, s⟩ final kept pass last rfl
    simp only [diskwritePass] at pass
    split at pass
    · next left =>
        have more : rest ≠ [] := List.length_pos_iff.mp left
        split at pass
        · cases pass
        · next failed =>
            cases pass
            exact ⟨⟨s.calls, rfl, .inl failed⟩, rest, more, kept⟩
        · next count wrote =>
            split at pass
            · next none =>
                cases pass
                have nothing : count = 0 := by omega
                rw [nothing] at wrote
                exact ⟨⟨s.calls, rfl, .inr wrote⟩, rest, more, kept⟩
            · cases pass
    · cases pass

theorem writeFile_error {content : List Byte} {pos : Nat}
    (ended : writeFile fuel writes content pos o = some (.error o')) :
    Cut writes content o o' := by
  induction content, pos using writeFile.induct generalizing o with
  | case1 pos =>
      rw [writeFile, if_pos rfl] at ended
      cases ended
  | case2 content pos more ih =>
      rw [writeFile, if_neg more] at ended
      rcases bind_eq_error ended with stopped | ⟨⟨⟩, middle, block, rest⟩
      · have cut := (diskwrite_error stopped).first (content.drop 4096)
        rwa [List.take_append_drop] at cut
      · have cut := Cut.second (diskwrite_ok block) (ih rest)
        rwa [List.take_append_drop] at cut

theorem padFile_error {pos : Nat} (ended : padFile fuel writes pos o = some (.error o')) :
    Cut writes (zerobuf (padding pos)) o o' := by
  unfold padFile at ended
  split at ended
  · rcases bind_eq_error ended with stopped | ⟨⟨⟩, middle, zeros, rest⟩
    · have same : padding pos = 512 - pos % 512 := by
        unfold padding
        omega
      rw [same]
      exact diskwrite_error stopped
    · cases rest
  · cases ended

theorem zeroSectors_error {n : Nat} (ended : zeroSectors fuel writes n o = some (.error o')) :
    Cut writes (zerobuf (512 * n)) o o' := by
  induction n generalizing o with
  | zero => cases ended
  | succ n ih =>
      have split : zerobuf (512 * (n + 1)) = zerobuf 512 ++ zerobuf (512 * n) := by
        rw [zerobuf, zerobuf, zerobuf, List.replicate_append_replicate, Nat.mul_succ, Nat.add_comm]
      rw [zeroSectors] at ended
      rw [split]
      rcases bind_eq_error ended with stopped | ⟨⟨⟩, middle, sector, rest⟩
      · exact (diskwrite_error stopped).first _
      · exact .second (diskwrite_ok sector) (ih rest)

theorem fillTo_error {sector nsectors : Nat}
    (ended : fillTo fuel writes sector nsectors o = some (.error o')) :
    Cut writes (zerobuf (512 * (sector - nsectors))) o o' := by
  rcases bind_eq_error ended with stopped | ⟨⟨⟩, middle, zeros, rest⟩
  · exact zeroSectors_error stopped
  · cases rest

end Cuts

section Arguments

variable {fuel : Nat} {writes : Nat → WriteResult} {ulongMax : Nat}
  {files : List Byte → Option (List Byte)} {boot arg : List Byte} {args before : List (List Byte)}
  {nsectors : Nat} {image : List Byte} {o : Output}

theorem readsAs_nil : ReadsAs ulongMax files boot [] (bootSector boot) := ⟨[], rfl, .sector⟩

theorem ReadsAs.aligned (made : ReadsAs ulongMax files boot args image)
    (small : boot.length ≤ 510) : 512 ∣ image.length := by
  obtain ⟨arguments, -, made⟩ := made
  exact made.aligned small

theorem ReadsAs.file {content : List Byte} (made : ReadsAs ulongMax files boot before image)
    (small : boot.length ≤ 510) (read : diskArgument ulongMax files arg = some (.file content)) :
    ReadsAs ulongMax files boot (before ++ [arg])
      (image ++ content ++ zerobuf (padding content.length)) := by
  have starts := made.aligned small
  obtain ⟨arguments, same, made⟩ := made
  obtain ⟨least, fills⟩ := padding_fills content.length
  refine ⟨arguments ++ [.file content], ?_, .file content _ made starts least ?_⟩
  · rw [List.map_append, List.map_append, same, List.map_singleton, List.map_singleton, read]
  · rw [Nat.add_assoc]
    exact Nat.dvd_add starts fills

theorem ReadsAs.skipTo {sector : Nat} (made : ReadsAs ulongMax files boot before image)
    (asked : diskArgument ulongMax files arg = some (.skipTo sector))
    (length : image.length = 512 * nsectors) (reached : nsectors ≤ sector) :
    ReadsAs ulongMax files boot (before ++ [arg])
      (image ++ zerobuf (512 * (sector - nsectors))) := by
  obtain ⟨arguments, same, made⟩ := made
  refine ⟨arguments ++ [.skipTo sector], ?_, .skipTo sector _ made ?_⟩
  · rw [List.map_append, List.map_append, same, List.map_singleton, List.map_singleton, asked]
  · omega

structure Wrote (ulongMax : Nat) (files : List Byte → Option (List Byte)) (boot : List Byte)
    (before : List (List Byte)) (nsectors : Nat) (o : Output) : Prop where
  made : ReadsAs ulongMax files boot before o.written
  length : o.written.length = 512 * nsectors

-- What the program does from one argument on: the argument gets written and the program goes on
-- with the rest, it is a bad one, or the output is cut within it.
def Takes (fuel : Nat) (writes : Nat → WriteResult) (ulongMax : Nat)
    (files : List Byte → Option (List Byte)) (boot : List Byte) (before : List (List Byte))
    (arg : List Byte) (rest : List (List Byte)) (o : Output)
    (result : Except Output (Nat × Output)) : Prop :=
  (∃ nsectors next, Wrote ulongMax files boot (before ++ [arg]) nsectors next ∧
    writeArguments fuel writes ulongMax files rest nsectors next = some result) ∨
  (BadArgument ulongMax files arg o ∧ result = .error o) ∨
  ∃ data o', ReadsAs ulongMax files boot (before ++ [arg]) (o.written ++ data) ∧
    Cut writes data o o' ∧ result = .error o'

variable {rest : List (List Byte)} {result : Except Output (Nat × Output)}

theorem Wrote.skipTo (wrote : Wrote ulongMax files boot before nsectors o) {sector : Nat}
    (directive : skipDirective ulongMax arg = some sector)
    (ended : writeArguments fuel writes ulongMax files (arg :: rest) nsectors o = some result) :
    Takes fuel writes ulongMax files boot before arg rest o result := by
  obtain ⟨made, length⟩ := wrote
  have asked : diskArgument ulongMax files arg = some (.skipTo sector) := by
    rw [diskArgument, directive]
  rw [writeArguments, directive] at ended
  simp only at ended
  split at ended
  · next passed =>
      cases ended
      exact .inr (.inl ⟨.inr ⟨sector, asked, by omega⟩, rfl⟩)
  · next ahead =>
      have image := made.skipTo asked length (by omega)
      rcases bind_eq_some ended with ⟨o', stopped, rfl⟩ | ⟨count, next, filled, afterFill⟩
      · exact .inr (.inr ⟨_, o', image, fillTo_error stopped, rfl⟩)
      · obtain ⟨written, rfl⟩ := fillTo_ok filled
        rw [← written] at image
        refine .inl ⟨_, next, ⟨image, ?_⟩, afterFill⟩
        rw [written, List.length_append, zerobuf_length, length]
        omega

theorem Wrote.file (wrote : Wrote ulongMax files boot before nsectors o)
    (small : boot.length ≤ 510) {content : List Byte} (plain : skipDirective ulongMax arg = none)
    (found : files arg = some content)
    (ended : writeArguments fuel writes ulongMax files (arg :: rest) nsectors o = some result) :
    Takes fuel writes ulongMax files boot before arg rest o result := by
  obtain ⟨made, length⟩ := wrote
  have read : diskArgument ulongMax files arg = some (.file content) := by
    rw [diskArgument, plain, found]
    rfl
  have image := made.file small read
  rw [List.append_assoc] at image
  rw [writeArguments, plain] at ended
  simp only at ended
  rw [bind_ok (fopencheck_opens found o)] at ended
  rcases bind_eq_some ended with ⟨o', stopped, rfl⟩ | ⟨pos, copied, file, afterFile⟩
  · exact .inr (.inr ⟨_, o', image, (writeFile_error stopped).first _, rfl⟩)
  · obtain ⟨written, rfl⟩ := writeFile_ok file
    rw [Nat.zero_add] at afterFile
    rcases bind_eq_some afterFile with ⟨o', stopped, rfl⟩ | ⟨last, next, pad, afterPad⟩
    · exact .inr (.inr ⟨_, o', image, .second written (padFile_error stopped), rfl⟩)
    · obtain ⟨padded, rfl⟩ := padFile_ok pad
      have whole : next.written = o.written ++ (content ++ zerobuf (padding content.length)) := by
        rw [padded, written, List.append_assoc]
      have fills := padding_fills content.length
      rw [← whole] at image
      refine .inl ⟨_, next, ⟨image, ?_⟩, afterPad⟩
      rw [whole, List.length_append, List.length_append, zerobuf_length, length]
      omega

theorem Wrote.argument (wrote : Wrote ulongMax files boot before nsectors o)
    (small : boot.length ≤ 510)
    (ended : writeArguments fuel writes ulongMax files (arg :: rest) nsectors o = some result) :
    Takes fuel writes ulongMax files boot before arg rest o result := by
  cases directive : skipDirective ulongMax arg with
  | some sector => exact wrote.skipTo directive ended
  | none =>
      cases found : files arg with
      | some content => exact wrote.file small directive found ended
      | none =>
          have missing : fopencheck files arg o = some (.error o) := by
            rw [fopencheck, found]
            rfl
          have unread : diskArgument ulongMax files arg = none := by
            rw [diskArgument, directive, found]
            rfl
          rw [writeArguments, directive] at ended
          simp only at ended
          rw [bind_error missing] at ended
          cases ended
          exact .inr (.inl ⟨.inl unread, rfl⟩)

theorem Wrote.arguments {name : List Byte} (bootFile : files name = some boot)
    (small : boot.length ≤ 510) (wrote : Wrote ulongMax files boot before nsectors o)
    (ended : writeArguments fuel writes ulongMax files rest nsectors o = some result) :
    (∃ count last, Wrote ulongMax files boot (before ++ rest) count last ∧
      result = .ok (count, last)) ∨
    ∃ last, Fails writes ulongMax files (name :: (before ++ rest)) last ∧
      result = .error last := by
  induction rest generalizing before nsectors o with
  | nil =>
      rw [writeArguments] at ended
      cases ended
      rw [List.append_nil]
      exact .inl ⟨nsectors, o, wrote, rfl⟩
  | cons arg rest ih =>
      rcases wrote.argument small ended with
        ⟨count, next, taken, afterArgument⟩ | ⟨bad, rfl⟩ | ⟨data, last, made, cut, rfl⟩
      · have outcome := ih taken afterArgument
        rwa [List.append_assoc, List.singleton_append] at outcome
      · exact .inr ⟨o, .argument bootFile small wrote.made bad, rfl⟩
      · obtain ⟨refused, missing, more, written⟩ := cut
        have stopped : Fails writes ulongMax files (name :: (before ++ [arg] ++ rest)) last :=
          .write bootFile small made refused more written
        rw [List.append_assoc, List.singleton_append] at stopped
        exact .inr ⟨last, stopped, rfl⟩

theorem afterBoot_result {name : List Byte} (bootFile : files name = some boot)
    (small : boot.length ≤ 510)
    (ended : (diskwrite fuel writes (bootSector boot) >>= fun _ =>
      writeArguments fuel writes ulongMax files rest 1 >>= fillTo fuel writes 1024) .empty =
        some result) :
    (∃ nsectors o, Whole ulongMax files (name :: rest) o ∧ result = .ok (nsectors, o)) ∨
    ∃ o, Fails writes ulongMax files (name :: rest) o ∧ result = .error o := by
  rcases bind_eq_some ended with ⟨o, stopped, rfl⟩ | ⟨⟨⟩, booted, sector, afterSector⟩
  · obtain ⟨refused, missing, more, written⟩ := diskwrite_error stopped
    have made : ReadsAs ulongMax files boot [] (bootSector boot) := readsAs_nil
    exact .inr ⟨o, .write bootFile small made refused more written, rfl⟩
  · have first : booted.written = bootSector boot := diskwrite_ok sector
    have wrote : Wrote ulongMax files boot [] 1 booted := by
      constructor
      · rw [first]
        exact readsAs_nil
      · rw [first, bootSector_length small]
    rcases bind_eq_some afterSector with ⟨o, stopped, rfl⟩ | ⟨count, copied, arguments, fill⟩
    · rcases wrote.arguments bootFile small stopped with ⟨_, _, _, same⟩ | ⟨last, fails, same⟩
      · cases same
      · cases same
        exact .inr ⟨o, fails, rfl⟩
    · rcases wrote.arguments bootFile small arguments with ⟨_, _, taken, same⟩ | ⟨_, _, same⟩
      · cases same
        obtain ⟨made, length⟩ := taken
        have zeros : 512 * 1024 - copied.written.length = 512 * (1024 - count) := by omega
        cases result with
        | ok pair =>
            obtain ⟨written, -⟩ := fillTo_ok fill
            rw [← zeros] at written
            have whole : Whole ulongMax files (name :: rest) pair.2 :=
              ⟨name, rest, boot, _, rfl, bootFile, small, made, written⟩
            exact .inl ⟨pair.1, pair.2, whole, rfl⟩
        | error o =>
            obtain ⟨refused, missing, more, written⟩ := fillTo_error fill
            rw [← zeros] at written
            exact .inr ⟨o, .fill bootFile small made refused more written, rfl⟩
      · cases same

end Arguments

theorem mkbootdisk_result {fuel : Nat} {writes : Nat → WriteResult} {ulongMax : Nat}
    {files : List Byte → Option (List Byte)} {args : List (List Byte)}
    {result : Except Output (Nat × Output)}
    (ended : mkbootdisk fuel writes ulongMax files args .empty = some result) :
    (∃ nsectors o, Whole ulongMax files args o ∧ result = .ok (nsectors, o)) ∨
    ∃ o, Fails writes ulongMax files args o ∧ result = .error o := by
  cases args with
  | nil =>
      cases ended
      exact .inr ⟨.empty, .start (fun _ _ _ none => nomatch none), rfl⟩
  | cons name rest =>
      rw [mkbootdisk] at ended
      cases bootFile : files name with
      | none =>
          have missing : fopencheck files name .empty = some (.error .empty) := by
            rw [fopencheck, bootFile]
            rfl
          rw [bind_error missing] at ended
          cases ended
          refine .inr ⟨.empty, .start fun name' rest' boot same found => ?_, rfl⟩
          cases same
          rw [bootFile] at found
          cases found
      | some boot =>
          rw [bind_ok (fopencheck_opens bootFile .empty)] at ended
          split at ended
          · next big =>
              cases ended
              refine .inr ⟨.empty, .start fun name' rest' boot' same found => ?_, rfl⟩
              cases same
              rw [bootFile] at found
              cases found
              rw [List.length_take] at big
              omega
          · next fits =>
              have small : boot.length ≤ 510 := by
                rw [List.length_take] at fits
                omega
              have block : boot.take 4096 = boot := List.take_of_length_le (by omega)
              rw [block] at ended
              exact afterBoot_result bootFile small ended

section Termination

variable {files : List Byte → Option (List Byte)}

theorem usage_stops : Stops fun _ => (usage : Disk Nat) := fun o => ⟨.error o, ends_const rfl⟩

theorem fopencheck_stops (name : List Byte) : Stops fun _ => fopencheck files name := by
  unfold fopencheck
  split
  · exact fun o => ⟨.error o, ends_const rfl⟩
  · exact stops_pure _

variable {writes : Nat → WriteResult} (resumes : Resumes writes)

include resumes

theorem diskwrite_stops (data : List Byte) : Stops fun fuel => diskwrite fuel writes data := by
  intro o
  classical
  have again (s next : List Byte × Output) (pass : diskwritePass writes s = .again next) :
      next.1.length < s.1.length ∨ next.1.length = s.1.length ∧
        Nat.find (resumes next.2.calls) - next.2.calls <
          Nat.find (resumes s.2.calls) - s.2.calls := by
    obtain ⟨rest, o⟩ := s
    simp only [diskwritePass] at pass
    split at pass
    · next left =>
        split at pass
        · next interrupted =>
            cases pass
            obtain ⟨least, goes⟩ := Nat.find_spec (resumes o.calls)
            have later : Nat.find (resumes o.calls) ≠ o.calls := by
              intro same
              rw [same] at goes
              exact goes interrupted
            have nearer : Nat.find (resumes (o.calls + 1)) ≤ Nat.find (resumes o.calls) :=
              Nat.find_min' _ ⟨by omega, goes⟩
            refine .inr ⟨rfl, ?_⟩
            show Nat.find (resumes (o.calls + 1)) - (o.calls + 1) <
              Nat.find (resumes o.calls) - o.calls
            omega
        · cases pass
        · split at pass
          · cases pass
          · next some_bytes =>
              cases pass
              refine .inl ?_
              show (rest.drop _).length < rest.length
              rw [List.length_drop]
              omega
    · cases pass
  obtain ⟨result, left⟩ := Loop.leaves_of_measures (fun s => s.1.length)
    (fun s => Nat.find (resumes s.2.calls) - s.2.calls) again (data, o)
  exact ⟨_, ends_of_leaves (fun fuel => rfl) left⟩

theorem writeFile_stops (content : List Byte) (pos : Nat) :
    Stops fun fuel => writeFile fuel writes content pos := by
  induction content, pos using writeFile.induct with
  | case1 pos =>
      have step (fuel : Nat) : writeFile fuel writes [] pos = pure pos := by
        rw [writeFile, if_pos rfl]
      exact (stops_pure pos).of_eq step
  | case2 content pos more ih =>
      have step (fuel : Nat) : writeFile fuel writes content pos =
          diskwrite fuel writes (content.take 4096) >>= fun _ =>
            writeFile fuel writes (content.drop 4096) (pos + (content.take 4096).length) := by
        rw [writeFile, if_neg more]
      exact ((diskwrite_stops resumes (content.take 4096)).bind fun _ => ih).of_eq step

theorem padFile_stops (pos : Nat) : Stops fun fuel => padFile fuel writes pos := by
  unfold padFile
  split
  · exact (diskwrite_stops resumes _).bind fun _ => stops_pure _
  · exact stops_pure pos

theorem zeroSectors_stops (n : Nat) : Stops fun fuel => zeroSectors fuel writes n := by
  induction n with
  | zero => exact stops_pure ()
  | succ n ih => exact (diskwrite_stops resumes (zerobuf 512)).bind fun _ => ih

theorem fillTo_stops (sector nsectors : Nat) :
    Stops fun fuel => fillTo fuel writes sector nsectors :=
  (zeroSectors_stops resumes (sector - nsectors)).bind fun _ => stops_pure _

variable {ulongMax : Nat}

theorem writeArguments_stops (args : List (List Byte)) (nsectors : Nat) :
    Stops fun fuel => writeArguments fuel writes ulongMax files args nsectors := by
  induction args generalizing nsectors with
  | nil => exact stops_pure nsectors
  | cons arg rest ih =>
      simp only [writeArguments]
      split
      · split
        · exact usage_stops
        · exact (fillTo_stops resumes _ nsectors).bind ih
      · refine (fopencheck_stops arg).bind fun content => ?_
        refine (writeFile_stops resumes content 0).bind fun pos => ?_
        exact (padFile_stops resumes pos).bind fun pos => ih _

theorem mkbootdisk_returns (args : List (List Byte)) :
    Stops fun fuel => mkbootdisk fuel writes ulongMax files args := by
  cases args with
  | nil => exact usage_stops
  | cons name rest =>
      refine (fopencheck_stops name).bind fun content => ?_
      simp only
      split
      · exact usage_stops
      · refine (diskwrite_stops resumes _).bind fun _ => ?_
        exact (writeArguments_stops resumes rest 1).bind (fillTo_stops resumes 1024)

end Termination

theorem mkbootdisk_outcome {writes : Nat → WriteResult} (resumes : Resumes writes)
    (ulongMax : Nat) (files : List Byte → Option (List Byte)) (args : List (List Byte)) :
    (∃ nsectors o, Whole ulongMax files args o ∧
      Ends (fun fuel => mkbootdisk fuel writes ulongMax files args) .empty (.ok (nsectors, o))) ∨
    ∃ o, Fails writes ulongMax files args o ∧
      Ends (fun fuel => mkbootdisk fuel writes ulongMax files args) .empty (.error o) := by
  have stops : Stops fun fuel => mkbootdisk fuel writes ulongMax files args :=
    mkbootdisk_returns resumes args
  obtain ⟨result, ended⟩ := stops .empty
  obtain ⟨fuel, run⟩ := ended.some_fuel
  rcases mkbootdisk_result run with ⟨nsectors, o, whole, rfl⟩ | ⟨o, fails, rfl⟩
  · exact .inl ⟨nsectors, o, whole, ended⟩
  · exact .inr ⟨o, fails, ended⟩

theorem mkbootdisk_outcome_refused :
    let writes := fun k =>
      if k = 0 then .interrupted else if k = 1 then .wrote 100 else WriteResult.failed
    (∃ nsectors o, Whole 0xFFFFFFFF some [[chr 'b'], [chr 'k']] o ∧
      Ends (fun fuel => mkbootdisk fuel writes 0xFFFFFFFF some [[chr 'b'], [chr 'k']]) .empty
        (.ok (nsectors, o))) ∨
    ∃ o, Fails writes 0xFFFFFFFF some [[chr 'b'], [chr 'k']] o ∧
      Ends (fun fuel => mkbootdisk fuel writes 0xFFFFFFFF some [[chr 'b'], [chr 'k']]) .empty
        (.error o) := by
  intro writes
  have resumes : Resumes writes := by
    refine fun k => ⟨k + 2, by omega, ?_⟩
    have failed : writes (k + 2) = .failed := rfl
    rw [failed]
    exact WriteResult.noConfusion
  exact mkbootdisk_outcome resumes 0xFFFFFFFF some [[chr 'b'], [chr 'k']]

end SchedOS
