import SchedOS.Shared.Rotation

set_option autoImplicit false

namespace Rounds

open Rotation

variable {w : Nat → Nat} {n c p q m : Nat}

def block (w : Nat → Nat) (p : Nat) : List Nat := List.replicate (w p) p

def blocks (w : Nat → Nat) (p count : Nat) : List Nat := (List.range' p count).flatMap (block w)

def round (w : Nat → Nat) (n : Nat) : List Nat := blocks w 0 n

def ahead (w : Nat → Nat) (n p m : Nat) : List Nat :=
  blocks w (p + 1) (n - 1 - p) ++ (List.replicate m (round w n)).flatten

theorem mem_blocks {start count : Nat} :
    p ∈ blocks w start count ↔ start ≤ p ∧ p < start + count ∧ 0 < w p := by
  simp only [blocks, block, List.mem_flatMap, List.mem_range'_1, List.mem_replicate]
  constructor
  · rintro ⟨owner, ⟨low, high⟩, some, rfl⟩
    exact ⟨low, high, Nat.pos_of_ne_zero some⟩
  · rintro ⟨low, high, some⟩
    exact ⟨p, ⟨low, high⟩, some.ne', rfl⟩

theorem blocks_append (start first rest : Nat) :
    blocks w start (first + rest) = blocks w start first ++ blocks w (start + first) rest := by
  rw [blocks, blocks, blocks, ← List.flatMap_append, List.range'_append_1]

theorem blocks_cons (start rest : Nat) :
    blocks w start (rest + 1) = block w start ++ blocks w (start + 1) rest := by
  rw [blocks, List.range'_succ, List.flatMap_cons, blocks]

theorem blocks_split (low : c ≤ p) (high : p < n) :
    blocks w c (n - c) = blocks w c (p - c) ++ block w p ++ blocks w (p + 1) (n - 1 - p) := by
  have parts : n - c = (p - c) + ((n - 1 - p) + 1) := by omega
  have here : c + (p - c) = p := by omega
  rw [parts, blocks_append, here, blocks_cons, List.append_assoc]

theorem blocks_count {start count : Nat} :
    (blocks w start count).count p = if start ≤ p ∧ p < start + count then w p else 0 := by
  induction count generalizing start with
  | zero => rw [if_neg (by omega)]; rfl
  | succ count ih =>
      rw [blocks_cons, List.count_append, ih, block]
      by_cases here : start = p
      · subst here
        rw [List.count_replicate_self, if_neg (by omega), if_pos (by omega), Nat.add_zero]
      · rw [List.count_replicate, if_neg (by simpa using here)]
        split_ifs <;> omega

theorem rounds_count (inside : p < n) (m : Nat) :
    (List.replicate m (round w n)).flatten.count p = m * w p := by
  induction m with
  | zero => simp
  | succ m ih =>
      rw [List.replicate_succ, List.flatten_cons, List.count_append, ih, round, blocks_count,
        if_pos (by omega), Nat.succ_mul, Nat.add_comm]

theorem ahead_count (inside : p < n) (bound : c < n) (m : Nat) :
    (ahead w n c m).count p = (if c < p then w p else 0) + m * w p := by
  rw [ahead, List.count_append, rounds_count inside, blocks_count]
  congr 1
  split_ifs <;> omega

theorem next_block {live : Nat → Prop} (bound : c < n) (next : IsNext n live c q) :
    ∃ passed : List Nat, (∀ p ∈ passed, ¬ live p ∧ p < n ∧ 0 < w p) ∧
      ((c < q ∧ ∀ m, ahead w n c m = passed ++ block w q ++ ahead w n q m) ∨
        (q ≤ c ∧ ∀ m, ahead w n c (m + 1) = passed ++ block w q ++ ahead w n q m)) := by
  have inside := next.bound
  have earlier (p : Nat) (low : p < n) (nearer : gap n c p < gap n c q) : ¬ live p := fun found =>
    absurd (next.first p low found) (by omega)
  rcases Nat.lt_or_ge c q with later | around
  · refine ⟨blocks w (c + 1) (q - (c + 1)), fun p member => ?_, .inl ⟨later, fun m => ?_⟩⟩
    · obtain ⟨low, high, some⟩ := mem_blocks.mp member
      refine ⟨earlier p (by omega) ?_, by omega, some⟩
      rw [gap_of_lt (by omega) (by omega), gap_of_lt later inside]
      omega
    · have rest : n - 1 - c = n - (c + 1) := by omega
      rw [ahead, rest, blocks_split later inside, ahead]
      simp only [List.append_assoc]
  · refine ⟨blocks w (c + 1) (n - 1 - c) ++ blocks w 0 q, fun p member => ?_,
      .inr ⟨around, fun m => ?_⟩⟩
    · rcases List.mem_append.mp member with after | before
      · obtain ⟨low, high, some⟩ := mem_blocks.mp after
        refine ⟨earlier p (by omega) ?_, by omega, some⟩
        rw [gap_of_lt (by omega) (by omega), gap_of_ge around bound]
        omega
      · obtain ⟨low, high, some⟩ := mem_blocks.mp before
        refine ⟨earlier p (by omega) ?_, by omega, some⟩
        rw [gap_of_ge (by omega) bound, gap_of_ge around bound]
        omega
    · have whole : round w n = blocks w 0 q ++ block w q ++ blocks w (q + 1) (n - 1 - q) :=
        blocks_split (Nat.zero_le q) inside
      rw [ahead, List.replicate_succ, List.flatten_cons, ahead]
      nth_rewrite 1 [whole]
      simp only [List.append_assoc]

end Rounds
