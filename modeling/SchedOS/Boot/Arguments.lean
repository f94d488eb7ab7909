import Mathlib.Data.List.Induction
import SchedOS.Boot.Image

set_option autoImplicit false

namespace SchedOS

inductive DiskArgument where
  | file (content : List Byte)
  | skipTo (sector : Nat)

def diskArgument (ulongMax : Nat) (files : List Byte → Option (List Byte)) (arg : List Byte) :
    Option DiskArgument :=
  match skipDirective ulongMax arg with
  | some sector => some (.skipTo sector)
  | none => (files arg).map .file

/-- The documented image of the arguments, up to what the last one takes. -/
inductive DiskImage (boot : List Byte) : List DiskArgument → List Byte → Prop
  | sector : DiskImage boot [] (boot ++ zerobuf (510 - boot.length) ++ [0x55, 0xAA])
  | file {before : List DiskArgument} {image : List Byte} (content : List Byte) (pad : Nat)
      (made : DiskImage boot before image) (starts : 512 ∣ image.length) (least : pad < 512)
      (fills : 512 ∣ image.length + content.length + pad) :
      DiskImage boot (before ++ [.file content]) (image ++ content ++ zerobuf pad)
  | skipTo {before : List DiskArgument} {image : List Byte} (sector gap : Nat)
      (made : DiskImage boot before image) (starts : image.length + gap = 512 * sector) :
      DiskImage boot (before ++ [.skipTo sector]) (image ++ zerobuf gap)

def GoesForward (boot : List Byte) (arguments : List DiskArgument) : Prop :=
  ∀ before sector after image, arguments = before ++ .skipTo sector :: after →
    DiskImage boot before image → image.length ≤ 512 * sector

section Images

variable {boot : List Byte}

theorem zerobuf_length (amt : Nat) : (zerobuf amt).length = amt := List.length_replicate

theorem DiskImage.aligned (small : boot.length ≤ 510) {arguments : List DiskArgument}
    {image : List Byte} (made : DiskImage boot arguments image) : 512 ∣ image.length := by
  induction made with
  | sector => exact ⟨1, bootSector_length small⟩
  | file content pad _ _ _ fills _ =>
      rwa [List.length_append, List.length_append, zerobuf_length]
  | skipTo sector gap _ starts _ =>
      rw [List.length_append, zerobuf_length, starts]
      exact Nat.dvd_mul_right 512 sector

theorem padding_fills (n : Nat) : padding n < 512 ∧ 512 ∣ n + padding n := by
  unfold padding
  omega

theorem diskImage_exists (small : boot.length ≤ 510) {arguments : List DiskArgument}
    (forward : GoesForward boot arguments) : ∃ image, DiskImage boot arguments image := by
  induction arguments using List.reverseRecOn with
  | nil => exact ⟨_, .sector⟩
  | append_singleton before argument ih =>
      obtain ⟨image, made⟩ := ih fun earlier sector after image split =>
        forward earlier sector (after ++ [argument]) image (by rw [split]; simp)
      have starts := made.aligned small
      cases argument with
      | file content =>
          obtain ⟨least, fills⟩ := padding_fills content.length
          refine ⟨_, .file content _ made starts least ?_⟩
          rw [Nat.add_assoc]
          exact Nat.dvd_add starts fills
      | skipTo sector =>
          have reached := forward before sector [] image rfl made
          exact ⟨_, .skipTo sector (512 * sector - image.length) made (by omega)⟩

theorem goesForward_files (contents : List (List Byte)) :
    GoesForward boot (contents.map DiskArgument.file) := by
  intro before sector after image split
  have member : DiskArgument.skipTo sector ∈ contents.map DiskArgument.file := by
    rw [split]
    exact List.mem_append_right before (List.mem_cons_self)
  obtain ⟨content, -, same⟩ := List.mem_map.mp member
  cases same

end Images

section Runs

open Fuel

variable {writes : Nat → WriteResult} {ulongMax : Nat} {files : List Byte → Option (List Byte)}
  {arg : List Byte} {nsectors : Nat}

theorem diskArgument_file {content : List Byte}
    (read : diskArgument ulongMax files arg = some (.file content)) :
    skipDirective ulongMax arg = none ∧ files arg = some content := by
  unfold diskArgument at read
  cases directive : skipDirective ulongMax arg with
  | some sector =>
      rw [directive] at read
      cases read
  | none =>
      rw [directive] at read
      obtain ⟨found, file, same⟩ := Option.map_eq_some_iff.mp read
      cases same
      exact ⟨rfl, file⟩

theorem diskArgument_skipTo {sector : Nat}
    (asked : diskArgument ulongMax files arg = some (.skipTo sector)) :
    skipDirective ulongMax arg = some sector := by
  unfold diskArgument at asked
  cases directive : skipDirective ulongMax arg with
  | some sector =>
      rw [directive] at asked
      cases asked
      rfl
  | none =>
      rw [directive] at asked
      obtain ⟨found, file, same⟩ := Option.map_eq_some_iff.mp asked
      cases same

theorem writeArguments_append (fuel : Nat) (first rest : List (List Byte)) (nsectors : Nat) :
    writeArguments fuel writes ulongMax files (first ++ rest) nsectors =
      writeArguments fuel writes ulongMax files first nsectors >>=
        writeArguments fuel writes ulongMax files rest := by
  induction first generalizing nsectors with
  | nil => rw [List.nil_append, writeArguments, pure_bind]
  | cons arg first ih =>
      rw [List.cons_append, writeArguments, writeArguments]
      cases skipDirective ulongMax arg with
      | some sector =>
          simp only
          split
          · rfl
          · simp only [bind_assoc, ih]
      | none => simp only [bind_assoc, ih]

theorem writeArguments_bind {first rest : List (List Byte)} {count : Nat} {o middle : Output}
    {result : Except Output (Nat × Output)}
    (firstRun : Ends (fun fuel => writeArguments fuel writes ulongMax files first count) o
      (.ok (nsectors, middle)))
    (restRun : Ends (fun fuel => writeArguments fuel writes ulongMax files rest nsectors) middle
      result) :
    Ends (fun fuel => writeArguments fuel writes ulongMax files (first ++ rest) count) o result :=
  (firstRun.bind restRun).of_eq fun fuel => writeArguments_append fuel first rest count

theorem arguments_split {before after : List DiskArgument} {middle : DiskArgument}
    {args : List (List Byte)}
    (read : args.map (diskArgument ulongMax files) = (before ++ middle :: after).map some) :
    ∃ first arg rest, args = first ++ arg :: rest ∧
      first.map (diskArgument ulongMax files) = before.map some ∧
      diskArgument ulongMax files arg = some middle ∧
      rest.map (diskArgument ulongMax files) = after.map some := by
  rw [List.map_append, List.map_cons, List.map_eq_append_iff] at read
  obtain ⟨first, last, rfl, firstRead, lastRead⟩ := read
  obtain ⟨arg, rest, rfl, argRead, restRead⟩ := List.map_eq_cons_iff.mp lastRead
  exact ⟨first, arg, rest, rfl, firstRead, argRead, restRead⟩

section Progress

variable (progress : Progress writes)

include progress

theorem writeArguments_file {content : List Byte}
    (read : diskArgument ulongMax files arg = some (.file content)) (nsectors : Nat) (o : Output) :
    ∃ o', Ends (fun fuel => writeArguments fuel writes ulongMax files [arg] nsectors) o
        (.ok (nsectors + (content.length + padding content.length) / 512, o')) ∧
      o'.written = o.written ++ content ++ zerobuf (padding content.length) := by
  obtain ⟨plain, exists_file⟩ := diskArgument_file read
  have opened := fopencheck_opens exists_file o
  obtain ⟨pos, middle, file⟩ := writeFile_ends progress content 0 o
  obtain ⟨last, o', pad⟩ := padFile_ends progress pos middle
  obtain ⟨_, fileRun⟩ := file.some_fuel
  obtain ⟨_, padRun⟩ := pad.some_fuel
  obtain ⟨copied, rfl⟩ := writeFile_ok fileRun
  obtain ⟨padded, rfl⟩ := padFile_ok padRun
  rw [Nat.zero_add] at file pad padded
  have step (fuel : Nat) : writeArguments fuel writes ulongMax files [arg] nsectors =
      fopencheck files arg >>= fun content => writeFile fuel writes content 0 >>= fun pos =>
        padFile fuel writes pos >>= fun pos => pure (nsectors + pos / 512) := by
    rw [writeArguments, plain]
    rfl
  refine ⟨o', Ends.of_eq ?_ step, by rw [padded, copied]⟩
  exact .bind (ends_const opened) (.bind file (.bind pad (ends_const rfl)))

theorem writeArguments_skipTo {sector : Nat}
    (asked : diskArgument ulongMax files arg = some (.skipTo sector)) (reached : nsectors ≤ sector)
    (o : Output) :
    ∃ o', Ends (fun fuel => writeArguments fuel writes ulongMax files [arg] nsectors) o
        (.ok (sector, o')) ∧
      o'.written = o.written ++ zerobuf (512 * (sector - nsectors)) := by
  obtain ⟨o', filled, written⟩ := fillTo_ends progress sector nsectors o
  have step (fuel : Nat) : writeArguments fuel writes ulongMax files [arg] nsectors =
      fillTo fuel writes sector nsectors >>= pure := by
    rw [writeArguments, diskArgument_skipTo asked]
    simp only
    rw [if_neg (by omega)]
    rfl
  rw [Nat.max_eq_right reached] at filled
  refine ⟨o', Ends.of_eq ?_ step, written⟩
  exact .bind filled (ends_const rfl)

theorem writeArguments_image {boot : List Byte} (small : boot.length ≤ 510)
    {before : List DiskArgument} {image : List Byte} (made : DiskImage boot before image)
    {args : List (List Byte)} (read : args.map (diskArgument ulongMax files) = before.map some)
    {o : Output} (sector : o.written = bootSector boot) :
    ∃ nsectors o', Ends (fun fuel => writeArguments fuel writes ulongMax files args 1) o
        (.ok (nsectors, o')) ∧
      o'.written = image ∧ image.length = 512 * nsectors := by
  induction made generalizing args with
  | sector =>
      rw [List.map_nil, List.map_eq_nil_iff] at read
      subst read
      exact ⟨1, o, ends_const rfl, sector, bootSector_length small⟩
  | @file before image content pad made starts least fills ih =>
      obtain ⟨first, arg, rest, rfl, firstRead, argRead, restRead⟩ := arguments_split read
      obtain rfl := List.map_eq_nil_iff.mp restRead
      obtain ⟨nsectors, middle, run, written, length⟩ := ih firstRead
      obtain ⟨o', last, copied⟩ := writeArguments_file progress argRead nsectors middle
      have pads : pad = padding content.length := by
        unfold padding
        omega
      refine ⟨_, o', writeArguments_bind run last, by rw [copied, written, pads], ?_⟩
      rw [List.length_append, List.length_append, zerobuf_length]
      omega
  | @skipTo before image target gap made starts ih =>
      obtain ⟨first, arg, rest, rfl, firstRead, argRead, restRead⟩ := arguments_split read
      obtain rfl := List.map_eq_nil_iff.mp restRead
      obtain ⟨nsectors, middle, run, written, length⟩ := ih firstRead
      have reached : nsectors ≤ target := by omega
      obtain ⟨o', last, filled⟩ := writeArguments_skipTo progress argRead reached middle
      have zeros : gap = 512 * (target - nsectors) := by omega
      refine ⟨_, o', writeArguments_bind run last, by rw [filled, written, zeros], ?_⟩
      rw [List.length_append, zerobuf_length, starts]

section Main

variable {bootName boot : List Byte} (bootFile : files bootName = some boot)
  (small : boot.length ≤ 510)

include bootFile small

theorem mkbootdisk_ends : ∃ o, o.written = bootSector boot ∧
    ∀ args result,
      Ends (fun fuel => writeArguments fuel writes ulongMax files args 1 >>=
        fillTo fuel writes 1024) o result →
      Ends (fun fuel => mkbootdisk fuel writes ulongMax files (bootName :: args)) .empty
        result := by
  have block : boot.take 4096 = boot := List.take_of_length_le (by omega)
  have opened := fopencheck_opens bootFile .empty
  obtain ⟨o, sector⟩ := diskwrite_ends progress (bootSector boot) .empty
  obtain ⟨_, run⟩ := sector.some_fuel
  refine ⟨o, (diskwrite_ok run).trans (List.nil_append _), fun args result rest => ?_⟩
  have step (fuel : Nat) : mkbootdisk fuel writes ulongMax files (bootName :: args) .empty =
      (diskwrite fuel writes (bootSector boot) >>= fun _ =>
        writeArguments fuel writes ulongMax files args 1 >>= fillTo fuel writes 1024) .empty := by
    rw [mkbootdisk, bind_ok opened]
    simp only [block]
    rw [if_neg (by omega)]
    rfl
  have whole : Ends (fun fuel => diskwrite fuel writes (bootSector boot) >>= fun _ =>
      writeArguments fuel writes ulongMax files args 1 >>= fillTo fuel writes 1024) .empty result :=
    .bind sector rest
  obtain ⟨enough, ended⟩ := whole
  exact ⟨enough, fun fuel more => (step fuel).trans (ended fuel more)⟩

theorem mkbootdisk_makes {arguments : List DiskArgument} {image : List Byte}
    (made : DiskImage boot arguments image) {args : List (List Byte)}
    (read : args.map (diskArgument ulongMax files) = arguments.map some) :
    ∃ nsectors o, Ends (fun fuel => mkbootdisk fuel writes ulongMax files (bootName :: args)) .empty
        (.ok (nsectors, o)) ∧
      o.written = image ++ zerobuf (512 * 1024 - image.length) ∧
      o.written.length = 512 * nsectors ∧ 1024 ≤ nsectors := by
  obtain ⟨o, sector, ends⟩ := mkbootdisk_ends progress bootFile small
  obtain ⟨nsectors, middle, run, written, length⟩ :=
    writeArguments_image progress small made read sector
  obtain ⟨o', filled, zeros⟩ := fillTo_ends progress 1024 nsectors middle
  have rest : 512 * 1024 - image.length = 512 * (1024 - nsectors) := by omega
  rw [written, ← rest] at zeros
  refine ⟨_, o', ends args _ (.bind run filled), zeros, ?_, Nat.le_max_right _ _⟩
  rw [zeros, List.length_append, zerobuf_length]
  omega

theorem mkbootdisk_stops {before after : List DiskArgument} {sector : Nat} {image : List Byte}
    (made : DiskImage boot before image) (back : 512 * sector < image.length)
    {args : List (List Byte)}
    (read : args.map (diskArgument ulongMax files) = (before ++ .skipTo sector :: after).map some) :
    ∃ o, Ends (fun fuel => mkbootdisk fuel writes ulongMax files (bootName :: args)) .empty
        (.error o) ∧ o.written = image := by
  obtain ⟨first, arg, rest, rfl, firstRead, argRead, -⟩ := arguments_split read
  obtain ⟨o, booted, ends⟩ := mkbootdisk_ends progress bootFile small
  obtain ⟨nsectors, middle, run, written, length⟩ :=
    writeArguments_image progress small made firstRead booted
  have step (fuel : Nat) : writeArguments fuel writes ulongMax files (arg :: rest) nsectors =
      usage := by
    rw [writeArguments, diskArgument_skipTo argRead]
    exact if_pos (by omega)
  have stopped := writeArguments_bind run (Ends.of_eq (ends_const rfl) step)
  exact ⟨middle, ends _ _ stopped.bind_error, written⟩

end Main

end Progress

end Runs

theorem mkbootdisk_image {writes : Nat → WriteResult} (progress : Progress writes)
    {ulongMax : Nat} {files : List Byte → Option (List Byte)} {bootName boot : List Byte}
    (bootFile : files bootName = some boot) (small : boot.length ≤ 510)
    {args : List (List Byte)} {arguments : List DiskArgument}
    (read : args.map (diskArgument ulongMax files) = arguments.map some) :
    (GoesForward boot arguments → ∃ image nsectors o, DiskImage boot arguments image ∧
      Fuel.Ends (fun fuel => mkbootdisk fuel writes ulongMax files (bootName :: args)) .empty
        (.ok (nsectors, o)) ∧
      o.written = image ++ zerobuf (512 * 1024 - image.length) ∧
      o.written.length = 512 * nsectors ∧ 1024 ≤ nsectors) ∧
    ∀ before sector after image, arguments = before ++ .skipTo sector :: after →
      DiskImage boot before image → 512 * sector < image.length →
      ∃ o, Fuel.Ends (fun fuel => mkbootdisk fuel writes ulongMax files (bootName :: args)) .empty
        (.error o) ∧ o.written = image := by
  constructor
  · intro forward
    obtain ⟨image, made⟩ := diskImage_exists small forward
    obtain ⟨nsectors, o, run⟩ := mkbootdisk_makes progress bootFile small made read
    exact ⟨image, nsectors, o, made, run⟩
  · rintro before sector after image rfl made back
    exact mkbootdisk_stops progress bootFile small made back read

-- Each file holds its name; every second call is interrupted, and no call takes more than 7 bytes.
theorem mkbootdisk_image_halting :
    let writes := fun k => if k % 2 = 0 then .interrupted else .wrote 7
    (∃ image nsectors o, DiskImage [chr 'b'] [.file [chr 'k']] image ∧
      Fuel.Ends (fun fuel => mkbootdisk fuel writes 0xFFFFFFFF some [[chr 'b'], [chr 'k']]) .empty
        (.ok (nsectors, o)) ∧
      o.written = image ++ zerobuf (512 * 1024 - image.length) ∧
      o.written.length = 512 * nsectors ∧ 1024 ≤ nsectors) ∧
    ∃ o, Fuel.Ends (fun fuel => mkbootdisk fuel writes 0xFFFFFFFF some
        [[chr 'b'], [chr '@', chr '3'], [chr '@', chr '2']]) .empty (.error o) ∧
      o.written = bootSector [chr 'b'] ++ zerobuf 1024 := by
  intro writes
  have progress : Progress writes := by
    refine ⟨fun k => ?_, fun k => ⟨2 * k + 1, by omega, ?_⟩⟩
    · by_cases even : k % 2 = 0
      · exact .inl (if_pos even)
      · exact .inr ⟨7, by decide, if_neg even⟩
    · have odd : ¬ (2 * k + 1) % 2 = 0 := by omega
      exact ne_of_eq_of_ne (if_neg odd) WriteResult.noConfusion
  have forward : GoesForward [chr 'b'] [.file [chr 'k']] := goesForward_files [[chr 'k']]
  have starts : (bootSector [chr 'b']).length + 1024 = 512 * 3 := by
    rw [bootSector_length (by decide)]
  have made : DiskImage [chr 'b'] [.skipTo 3] (bootSector [chr 'b'] ++ zerobuf 1024) :=
    .skipTo 3 1024 .sector starts
  have back : 512 * 2 < (bootSector [chr 'b'] ++ zerobuf 1024).length := by
    rw [List.length_append, bootSector_length (by decide), zerobuf_length]
    decide
  exact ⟨(mkbootdisk_image progress rfl (by decide) rfl).1 forward,
    (mkbootdisk_image progress rfl (by decide) rfl).2 [.skipTo 3] 2 [] _ rfl made back⟩

end SchedOS
