import SchedOS.Boot.Disk
import SchedOS.Shared.Fuel

set_option autoImplicit false

namespace SchedOS

section Programs

variable {fuel : Nat} {writes : Nat → WriteResult} {o o' : Output}

theorem diskwrite_ok {data : List Byte}
    (ended : diskwrite fuel writes data o = some (.ok ((), o'))) :
    o'.written = o.written ++ data := by
  obtain ⟨result, left, same⟩ := Option.map_eq_some_iff.mp ended
  have all := Loop.Leaves.post (fun s => s.2.written ++ s.1 = o.written ++ data)
    (fun result => ∀ last, result = .ok last → last.written = o.written ++ data)
    ⟨fuel, left⟩ rfl ?_ ?_
  · cases result with
    | error _ => cases same
    | ok last =>
        cases same
        exact all o' rfl
  · rintro ⟨rest, s⟩ next kept pass
    simp only [diskwritePass] at pass
    split at pass
    · split at pass
      · cases pass
        exact kept
      · cases pass
      · split at pass
        · cases pass
        · cases pass
          rwa [List.append_assoc, List.take_append_drop]
    · cases pass
  · rintro ⟨rest, s⟩ final kept pass last rfl
    simp only [diskwritePass] at pass
    split at pass
    · split at pass
      · cases pass
      · cases pass
      · split at pass <;> cases pass
    · next none =>
        cases pass
        have empty : rest = [] := List.length_eq_zero_iff.mp (by omega)
        rwa [empty, List.append_nil] at kept

theorem writeFile_ok {content : List Byte} {pos last : Nat}
    (ended : writeFile fuel writes content pos o = some (.ok (last, o'))) :
    o'.written = o.written ++ content ∧ last = pos + content.length := by
  induction content, pos using writeFile.induct generalizing o with
  | case1 pos =>
      rw [writeFile, if_pos rfl] at ended
      obtain ⟨rfl, rfl⟩ := Fuel.pure_eq_ok ended
      exact ⟨(List.append_nil _).symm, rfl⟩
  | case2 content pos more ih =>
      rw [writeFile, if_neg more] at ended
      obtain ⟨⟨⟩, middle, first, rest⟩ := Fuel.bind_eq_ok ended
      obtain ⟨written, count⟩ := ih rest
      refine ⟨?_, ?_⟩
      · rw [written, diskwrite_ok first, List.append_assoc, List.take_append_drop]
      · rw [count, List.length_take, List.length_drop]
        omega

def padding (pos : Nat) : Nat := (512 - pos % 512) % 512

theorem padFile_ok {pos last : Nat} (ended : padFile fuel writes pos o = some (.ok (last, o'))) :
    o'.written = o.written ++ zerobuf (padding pos) ∧ last = pos + padding pos := by
  unfold padFile at ended
  unfold padding
  split at ended
  · obtain ⟨⟨⟩, middle, first, rest⟩ := Fuel.bind_eq_ok ended
    obtain ⟨rfl, rfl⟩ := Fuel.pure_eq_ok rest
    rw [diskwrite_ok first, Nat.mod_eq_of_lt (show 512 - pos % 512 < 512 by omega)]
    exact ⟨rfl, rfl⟩
  · next full =>
      obtain ⟨rfl, rfl⟩ := Fuel.pure_eq_ok ended
      rw [not_not.mp full]
      exact ⟨(List.append_nil _).symm, rfl⟩

theorem zeroSectors_ok {n : Nat} (ended : zeroSectors fuel writes n o = some (.ok ((), o'))) :
    o'.written = o.written ++ zerobuf (512 * n) := by
  induction n generalizing o with
  | zero =>
      obtain ⟨-, rfl⟩ := Fuel.pure_eq_ok ended
      exact (List.append_nil _).symm
  | succ n ih =>
      rw [zeroSectors] at ended
      obtain ⟨⟨⟩, middle, first, rest⟩ := Fuel.bind_eq_ok ended
      rw [ih rest, diskwrite_ok first, List.append_assoc, zerobuf, zerobuf, zerobuf,
        List.replicate_append_replicate, Nat.mul_succ, Nat.add_comm]

theorem fillTo_ok {sector nsectors last : Nat}
    (ended : fillTo fuel writes sector nsectors o = some (.ok (last, o'))) :
    o'.written = o.written ++ zerobuf (512 * (sector - nsectors)) ∧
      last = max nsectors sector := by
  obtain ⟨⟨⟩, middle, first, rest⟩ := Fuel.bind_eq_ok ended
  obtain ⟨rfl, rfl⟩ := Fuel.pure_eq_ok rest
  exact ⟨zeroSectors_ok first, rfl⟩

theorem fopencheck_opens {files : List Byte → Option (List Byte)} {name content : List Byte}
    (exists_file : files name = some content) (o : Output) :
    fopencheck files name o = some (.ok (content, o)) := by
  rw [fopencheck, exists_file]
  rfl

theorem fopencheck_ok {files : List Byte → Option (List Byte)} {name content read : List Byte}
    (exists_file : files name = some content)
    (ended : fopencheck files name o = some (.ok (read, o'))) : read = content ∧ o' = o := by
  rw [fopencheck_opens exists_file] at ended
  cases ended
  exact ⟨rfl, rfl⟩

end Programs

def bootSector (boot : List Byte) : List Byte := boot ++ zerobuf (510 - boot.length) ++ [0x55, 0xAA]

def paddedFile (content : List Byte) : List Byte := content ++ zerobuf (padding content.length)

theorem bootSector_length {boot : List Byte} (small : boot.length ≤ 510) :
    (bootSector boot).length = 512 := by
  simp only [bootSector, zerobuf, List.length_append, List.length_replicate, List.length_cons,
    List.length_nil]
  omega

theorem mkbootdisk_two {fuel : Nat} {writes : Nat → WriteResult} {ulongMax : Nat}
    {files : List Byte → Option (List Byte)} {bootName kernelName boot content : List Byte}
    (bootFile : files bootName = some boot) (small : boot.length ≤ 510)
    (kernelFile : files kernelName = some content)
    (plain : skipDirective ulongMax kernelName = none)
    {nsectors : Nat} {o : Output}
    (ended : mkbootdisk fuel writes ulongMax files [bootName, kernelName] .empty =
      some (.ok (nsectors, o))) :
    o.written = bootSector boot ++ paddedFile content ++
      zerobuf (512 * (1024 - (1 + (paddedFile content).length / 512))) := by
  have block : boot.take 4096 = boot := List.take_of_length_le (by omega)
  rw [mkbootdisk] at ended
  obtain ⟨read, o₁, opened, bootPart⟩ := Fuel.bind_eq_ok ended
  obtain ⟨rfl, rfl⟩ := fopencheck_ok bootFile opened
  simp only [block] at bootPart
  rw [if_neg (by omega)] at bootPart
  obtain ⟨⟨⟩, o₂, sector, afterBoot⟩ := Fuel.bind_eq_ok bootPart
  obtain ⟨count, o₃, arguments, fill⟩ := Fuel.bind_eq_ok afterBoot
  rw [writeArguments, plain] at arguments
  obtain ⟨read', o₄, opened', filePart⟩ := Fuel.bind_eq_ok arguments
  obtain ⟨rfl, rfl⟩ := fopencheck_ok kernelFile opened'
  obtain ⟨pos, o₅, file, afterFile⟩ := Fuel.bind_eq_ok filePart
  obtain ⟨last, o₆, pad, afterPad⟩ := Fuel.bind_eq_ok afterFile
  rw [writeArguments] at afterPad
  obtain ⟨rfl, rfl⟩ := Fuel.pure_eq_ok afterPad
  obtain ⟨filled, -⟩ := fillTo_ok fill
  obtain ⟨padded, rfl⟩ := padFile_ok pad
  obtain ⟨written, rfl⟩ := writeFile_ok file
  have length : (paddedFile read').length = 0 + read'.length + padding (0 + read'.length) := by
    simp [paddedFile, zerobuf]
  rw [filled, padded, written, diskwrite_ok sector, length]
  simp [bootSector, paddedFile, Output.empty]

-- `write` takes something or is interrupted, but not for ever.
structure Progress (writes : Nat → WriteResult) : Prop where
  result : ∀ k, writes k = .interrupted ∨ ∃ count, 0 < count ∧ writes k = .wrote count
  again : ∀ k, ∃ later, k ≤ later ∧ writes later ≠ .interrupted

def takesAll : Nat → WriteResult := fun _ => .wrote 4096

theorem takesAll_progress : Progress takesAll :=
  ⟨fun _ => .inr ⟨4096, by decide, rfl⟩, fun k => ⟨k, Nat.le_refl k, WriteResult.noConfusion⟩⟩

section Termination

open Fuel

variable {writes : Nat → WriteResult} (progress : Progress writes)

include progress

theorem diskwritePass_again {data : List Byte} (more : data ≠ []) (o : Output) :
    (writes o.calls = .interrupted ∧
      diskwritePass writes (data, o) = .again (data, { o with calls := o.calls + 1 })) ∨
    ∃ rest o', diskwritePass writes (data, o) = .again (rest, o') ∧ rest.length < data.length := by
  have left : data.length > 0 := List.length_pos_iff.mpr more
  simp only [diskwritePass, if_pos left]
  rcases progress.result o.calls with interrupted | ⟨count, positive, wrote⟩
  · left
    rw [interrupted]
    exact ⟨rfl, rfl⟩
  · right
    have some_bytes : min count data.length ≠ 0 := by omega
    rw [wrote]
    simp only [if_neg some_bytes]
    refine ⟨_, _, rfl, ?_⟩
    rw [List.length_drop]
    omega

theorem diskwrite_leaves (data : List Byte) (o : Output) :
    ∃ o', Loop.Leaves (diskwritePass writes) (data, o) (.ok o') := by
  induction size : data.length using Nat.strongRecOn generalizing data o with
  | ind size shorter =>
      subst size
      by_cases more : data = []
      · subst more
        exact ⟨o, 1, Loop.run_leave rfl 0⟩
      · -- Down to the next call that a signal does not interrupt.
        obtain ⟨later, least, goes⟩ := progress.again o.calls
        obtain ⟨gap, rfl⟩ := Nat.exists_eq_add_of_le least
        induction gap generalizing o with
        | zero =>
            rcases diskwritePass_again progress more o with ⟨stuck, -⟩ | ⟨rest, o', pass, less⟩
            · exact absurd stuck goes
            · obtain ⟨last, ended⟩ := shorter _ less rest o' rfl
              exact ⟨last, ended.again pass⟩
        | succ gap ih =>
            rcases diskwritePass_again progress more o with ⟨-, pass⟩ | ⟨rest, o', pass, less⟩
            · obtain ⟨last, ended⟩ := ih { o with calls := o.calls + 1 } (by simp)
                (by rwa [Nat.add_right_comm])
              exact ⟨last, ended.again pass⟩
            · obtain ⟨last, ended⟩ := shorter _ less rest o' rfl
              exact ⟨last, ended.again pass⟩

theorem diskwrite_ends (data : List Byte) (o : Output) :
    ∃ o', Ends (fun fuel => diskwrite fuel writes data) o (.ok ((), o')) := by
  obtain ⟨o', left⟩ := diskwrite_leaves progress data o
  have loop (fuel : Nat) : diskwrite fuel writes data o =
      (Loop.run (diskwritePass writes) fuel (data, o)).map (Except.map ((), ·)) := rfl
  have ended := ends_of_leaves loop left
  exact ⟨o', ended⟩

theorem writeFile_ends (content : List Byte) (pos : Nat) (o : Output) :
    ∃ last o', Ends (fun fuel => writeFile fuel writes content pos) o (.ok (last, o')) := by
  induction content, pos using writeFile.induct generalizing o with
  | case1 pos =>
      have step (fuel : Nat) : writeFile fuel writes [] pos = pure pos := by
        rw [writeFile, if_pos rfl]
      exact ⟨pos, o, (ends_const rfl).of_eq step⟩
  | case2 content pos more ih =>
      have step (fuel : Nat) : writeFile fuel writes content pos =
          diskwrite fuel writes (content.take 4096) >>= fun _ =>
            writeFile fuel writes (content.drop 4096) (pos + (content.take 4096).length) := by
        rw [writeFile, if_neg more]
      obtain ⟨middle, first⟩ := diskwrite_ends progress (content.take 4096) o
      obtain ⟨last, o', rest⟩ := ih middle
      exact ⟨last, o', (Ends.bind first rest).of_eq step⟩

theorem padFile_ends (pos : Nat) (o : Output) :
    ∃ last o', Ends (fun fuel => padFile fuel writes pos) o (.ok (last, o')) := by
  unfold padFile
  split
  · obtain ⟨o', first⟩ := diskwrite_ends progress (zerobuf (512 - pos % 512)) o
    exact ⟨_, o', first.bind (ends_const rfl)⟩
  · exact ⟨pos, o, ends_const rfl⟩

theorem zeroSectors_ends (n : Nat) (o : Output) :
    ∃ o', Ends (fun fuel => zeroSectors fuel writes n) o (.ok ((), o')) := by
  induction n generalizing o with
  | zero => exact ⟨o, ends_const rfl⟩
  | succ n ih =>
      obtain ⟨middle, first⟩ := diskwrite_ends progress (zerobuf 512) o
      obtain ⟨o', rest⟩ := ih middle
      exact ⟨o', first.bind rest⟩

theorem fillTo_ends (sector nsectors : Nat) (o : Output) :
    ∃ o', Ends (fun fuel => fillTo fuel writes sector nsectors) o
        (.ok (max nsectors sector, o')) ∧
      o'.written = o.written ++ zerobuf (512 * (sector - nsectors)) := by
  obtain ⟨o', first⟩ := zeroSectors_ends progress (sector - nsectors) o
  obtain ⟨_, run⟩ := first.some_fuel
  exact ⟨o', first.bind (ends_const rfl), zeroSectors_ok run⟩

end Termination

end SchedOS
