import Mathlib.Data.List.Count
import Mathlib.Data.List.Rotate
import Mathlib.Tactic.Common
import Mathlib.Tactic.SplitIfs
import SchedOS.Shared.Loop

set_option autoImplicit false

namespace Rotation

-- How many positions a walk from `c` visits before it first reaches `p`.
def gap (n c p : Nat) : Nat := (p + (n - 1 - c)) % n

theorem gap_of_lt {n c p : Nat} (less : c < p) (bound : p < n) : gap n c p = p - c - 1 := by
  have : p + (n - 1 - c) = p - c - 1 + n := by omega
  rw [gap, this, Nat.add_mod_right, Nat.mod_eq_of_lt (by omega)]

theorem gap_of_ge {n c p : Nat} (ge : p ≤ c) (bound : c < n) : gap n c p = p + (n - 1 - c) := by
  rw [gap, Nat.mod_eq_of_lt (by omega)]

theorem gap_self {n c : Nat} (bound : c < n) : gap n c c = n - 1 := by
  rw [gap_of_ge (Nat.le_refl c) bound]; omega

theorem gap_lt {n : Nat} (c p : Nat) (bound : c < n) : gap n c p < n :=
  Nat.mod_lt _ (by omega)

theorem gap_inj {n c p q : Nat} (cBound : c < n) (pBound : p < n) (qBound : q < n)
    (same : gap n c p = gap n c q) : p = q := by
  rcases Nat.lt_or_ge c p with hp | hp <;> rcases Nat.lt_or_ge c q with hq | hq
  · rw [gap_of_lt hp pBound, gap_of_lt hq qBound] at same; omega
  · rw [gap_of_lt hp pBound, gap_of_ge hq cBound] at same; omega
  · rw [gap_of_ge hp cBound, gap_of_lt hq qBound] at same; omega
  · rw [gap_of_ge hp cBound, gap_of_ge hq cBound] at same; omega

theorem gap_lt_self {n p q : Nat} (pBound : p < n) (qBound : q < n) (other : p ≠ q) :
    gap n p q < gap n p p := by
  have near := gap_lt p q pBound
  have apart : gap n p q ≠ gap n p p := fun same =>
    other (gap_inj pBound qBound pBound same).symm
  rw [gap_self pBound] at apart ⊢
  omega

theorem gap_hop {n c d p : Nat} (cBound : c < n) (dBound : d < n) (pBound : p < n)
    (before : gap n c d < gap n c p) : gap n d p + gap n c d + 1 = gap n c p := by
  rcases Nat.lt_or_ge c d with hd | hd <;> rcases Nat.lt_or_ge c p with hp | hp <;>
    rcases Nat.lt_or_ge d p with hdp | hdp <;>
    simp only [gap_of_lt, gap_of_ge, hd, hp, hdp, cBound, dBound, pBound] at before ⊢ <;> omega

theorem gap_next {n c : Nat} (cBound : c < n) : gap n c ((c + 1) % n) = 0 := by
  rcases Nat.lt_or_ge (c + 1) n with inside | outside
  · rw [Nat.mod_eq_of_lt inside, gap_of_lt (by omega) inside]; omega
  · have last : c + 1 = n := by omega
    rw [last, Nat.mod_self, gap_of_ge (by omega) cBound]; omega

theorem gap_succ {n c p : Nat} (cBound : c < n) (pBound : p < n) (other : (c + 1) % n ≠ p) :
    gap n c p = gap n ((c + 1) % n) p + 1 := by
  have next : (c + 1) % n < n := Nat.mod_lt _ (by omega)
  have near := gap_next cBound
  have positive : gap n c p ≠ 0 := fun zero =>
    other (gap_inj cBound next pBound (near.trans zero.symm))
  have hop := gap_hop cBound next pBound (by omega)
  omega

/-- The first wanted position on the way from `c`; `c` itself comes last. -/
structure IsNext (n : Nat) (wanted : Nat → Prop) (c p : Nat) : Prop where
  bound : p < n
  stop : wanted p
  first : ∀ q, q < n → wanted q → gap n c p ≤ gap n c q

theorem IsNext.unique {n : Nat} {wanted : Nat → Prop} {c p q : Nat} (cBound : c < n)
    (left : IsNext n wanted c p) (right : IsNext n wanted c q) : p = q :=
  gap_inj cBound left.bound right.bound
    (Nat.le_antisymm (left.first q right.bound right.stop) (right.first p left.bound left.stop))

theorem IsNext.here {n : Nat} {wanted : Nat → Prop} {c : Nat} (cBound : c < n)
    (found : wanted ((c + 1) % n)) : IsNext n wanted c ((c + 1) % n) := by
  have bound : (c + 1) % n < n := Nat.mod_lt _ (by omega)
  refine ⟨bound, found, fun q qBound _ => ?_⟩
  by_cases same : (c + 1) % n = q
  · exact Nat.le_of_eq (same ▸ rfl)
  · have far := gap_succ cBound qBound same
    have near : gap n c ((c + 1) % n) = 0 := gap_next cBound
    omega

theorem IsNext.further {n : Nat} {wanted : Nat → Prop} {c p : Nat} (cBound : c < n)
    (skipped : ¬ wanted ((c + 1) % n)) (next : IsNext n wanted ((c + 1) % n) p) :
    IsNext n wanted c p := by
  have other : ∀ q, wanted q → (c + 1) % n ≠ q := fun q found same => skipped (same ▸ found)
  refine ⟨next.bound, next.stop, fun q qBound found => ?_⟩
  rw [gap_succ cBound next.bound (other p next.stop), gap_succ cBound qBound (other q found)]
  exact Nat.succ_le_succ (next.first q qBound found)

def scan {ρ : Type} (n : Nat) (wanted : Nat → Prop) [DecidablePred wanted] (stop : Nat → ρ)
    (pid : Nat) : Loop.Pass Nat ρ :=
  if wanted ((pid + 1) % n) then .leave (stop ((pid + 1) % n)) else .again ((pid + 1) % n)

section Scan

variable {ρ : Type} {n : Nat} {wanted : Nat → Prop} [DecidablePred wanted] {stop : Nat → ρ}
variable {c p : Nat}

theorem scan_found (found : wanted ((c + 1) % n)) :
    scan n wanted stop c = .leave (stop ((c + 1) % n)) := by
  simp [scan, found]

theorem scan_skip (skipped : ¬ wanted ((c + 1) % n)) :
    scan n wanted stop c = .again ((c + 1) % n) := by
  simp [scan, skipped]

theorem scan_ends (stop : Nat → ρ) (cBound : c < n) (pBound : p < n) (found : wanted p) :
    ∃ result, Loop.Leaves (scan n wanted stop) c result := by
  have ended := Loop.ends_within (scan n wanted stop) (fun pid => pid < n)
    (fun pid => gap n pid p) (by
      intro pid next bound pass
      by_cases here : wanted ((pid + 1) % n)
      · simp [scan_found here] at pass
      · simp only [scan_skip here, Loop.Pass.again.injEq] at pass
        subst pass
        have other : (pid + 1) % n ≠ p := fun same => here (same ▸ found)
        exact ⟨Nat.mod_lt _ (by omega), by rw [gap_succ bound pBound other]; omega⟩)
    cBound (gap_lt c p cBound)
  obtain ⟨result, ended⟩ := ended
  exact ⟨result, n, ended⟩

theorem scan_next (cBound : c < n) {result : ρ} (left : Loop.Leaves (scan n wanted stop) c result) :
    ∃ p, IsNext n wanted c p ∧ result = stop p := by
  obtain ⟨fuel, ended⟩ := left
  induction fuel generalizing c with
  | zero => simp [Loop.run] at ended
  | succ fuel ih =>
      by_cases found : wanted ((c + 1) % n)
      · rw [Loop.run_leave (scan_found found)] at ended
        exact ⟨_, IsNext.here cBound found, (Option.some.inj ended).symm⟩
      · rw [Loop.run_again (scan_skip found)] at ended
        obtain ⟨p, next, same⟩ := ih (Nat.mod_lt _ (by omega)) ended
        exact ⟨p, IsNext.further cBound found next, same⟩

theorem scan_leaves_iff (cBound : c < n) {result : ρ} :
    Loop.Leaves (scan n wanted stop) c result ↔ ∃ p, IsNext n wanted c p ∧ result = stop p := by
  constructor
  · exact scan_next cBound
  · rintro ⟨p, next, rfl⟩
    obtain ⟨result, ended⟩ := scan_ends stop cBound next.bound next.stop
    obtain ⟨q, other, rfl⟩ := scan_next cBound ended
    exact (other.unique cBound next) ▸ ended

end Scan

def Spares (n p : Nat) : Nat → List Nat → Prop
  | _, [] => True
  | c, d :: stops => d < n ∧ gap n c d ≤ gap n c p ∧ Spares n p d stops

theorem turns {n p q : Nat} (pBound : p < n) (qBound : q < n) (other : p ≠ q) {c : Nat}
    (cBound : c < n) (stops : List Nat) (sparesP : Spares n p c stops)
    (sparesQ : Spares n q c stops) :
    (gap n c p < gap n c q →
      stops.count q ≤ stops.count p ∧ stops.count p ≤ stops.count q + 1) ∧
    (gap n c q < gap n c p →
      stops.count p ≤ stops.count q ∧ stops.count q ≤ stops.count p + 1) := by
  -- The nearer of the two may lead by one turn; a stop at it makes the other one the nearer.
  induction stops generalizing c with
  | nil => simp
  | cons d stops ih =>
      obtain ⟨dBound, hopP, restP⟩ := sparesP
      obtain ⟨-, hopQ, restQ⟩ := sparesQ
      obtain ⟨first, second⟩ := ih dBound restP restQ
      by_cases atP : d = p
      · subst atP
        have line := second (gap_lt_self dBound qBound other)
        simp only [List.count_cons_self, List.count_cons_of_ne other]
        constructor <;> intro order <;> omega
      · by_cases atQ : d = q
        · subst atQ
          have line := first (gap_lt_self dBound pBound other.symm)
          simp only [List.count_cons_self, List.count_cons_of_ne (Ne.symm other)]
          constructor <;> intro order <;> omega
        · have aheadP := gap_hop cBound dBound pBound
            (Nat.lt_of_le_of_ne hopP fun same => atP (gap_inj cBound dBound pBound same))
          have aheadQ := gap_hop cBound dBound qBound
            (Nat.lt_of_le_of_ne hopQ fun same => atQ (gap_inj cBound dBound qBound same))
          simp only [List.count_cons_of_ne atP, List.count_cons_of_ne atQ]
          exact ⟨fun order => first (by omega), fun order => second (by omega)⟩

theorem turns_balanced {n p q c : Nat} (pBound : p < n) (qBound : q < n) (cBound : c < n)
    (stops : List Nat) (sparesP : Spares n p c stops) (sparesQ : Spares n q c stops) :
    stops.count p ≤ stops.count q + 1 := by
  by_cases other : p = q
  · subst other; omega
  · have line := turns pBound qBound other cBound stops sparesP sparesQ
    rcases Nat.lt_trichotomy (gap n c p) (gap n c q) with less | same | more
    · exact (line.1 less).2
    · exact absurd (gap_inj cBound pBound qBound same) other
    · have := (line.2 more).1; omega

theorem Spares.initial {n p c : Nat} {stops : List Nat} (more : List Nat)
    (spares : Spares n p c (stops ++ more)) : Spares n p c stops := by
  induction stops generalizing c with
  | nil => trivial
  | cons d stops ih => exact ⟨spares.1, spares.2.1, ih spares.2.2⟩

theorem turns_between {n p q : Nat} (pBound : p < n) (qBound : q < n) (other : q ≠ p)
    (between : List Nat) (absent : p ∉ between) (sparesP : Spares n p p (between ++ [p]))
    (sparesQ : Spares n q p (between ++ [p])) : between.count q = 1 := by
  have order : gap n p q < gap n p p := gap_lt_self pBound qBound other.symm
  have once : between.count p = 0 := List.count_eq_zero_of_not_mem absent
  have upper := ((turns pBound qBound other.symm pBound between sparesP.initial sparesQ.initial).2
    order).2
  have lower := ((turns pBound qBound other.symm pBound _ sparesP sparesQ).2 order).1
  simp only [List.count_append, List.count_singleton_self, List.count_singleton,
    beq_eq_false_iff_ne.mpr other.symm] at lower
  simp only [Bool.false_eq_true, if_false] at lower
  omega

section Ring

def ring (n c : Nat) : List Nat := (List.range n).rotate (c + 1)

def behind (n c : Nat) : List Nat := (ring n c).dropLast

variable {n c p : Nat}

@[simp] theorem mem_ring : p ∈ ring n c ↔ p < n := by
  rw [ring, List.mem_rotate, List.mem_range]

@[simp] theorem ring_length : (ring n c).length = n := by
  rw [ring, List.length_rotate, List.length_range]

theorem ring_nodup : (ring n c).Nodup := List.nodup_rotate.mpr List.nodup_range

theorem gap_getElem (cBound : c < n) {i : Nat} (bound : i < (ring n c).length) :
    gap n c (ring n c)[i] = i := by
  have inside : i < n := by rwa [ring_length] at bound
  have value : (ring n c)[i] = (i + (c + 1)) % n := by
    simp only [ring, List.getElem_rotate, List.getElem_range, List.length_range]
  rw [value]
  rcases Nat.lt_or_ge (i + (c + 1)) n with straight | wrapped
  · rw [Nat.mod_eq_of_lt straight, gap_of_lt (by omega) straight]
    omega
  · rw [Nat.mod_eq_sub_mod wrapped, Nat.mod_eq_of_lt (by omega), gap_of_ge (by omega) cBound]
    omega

theorem ring_rotate (cBound : c < n) (pBound : p < n) :
    ring n p = (ring n c).rotate (gap n c p + 1) := by
  rw [ring, ring, List.rotate_rotate]
  rcases Nat.lt_or_ge c p with ahead | around
  · rw [gap_of_lt ahead pBound]
    congr 1
    omega
  · have whole : c + 1 + (p + (n - 1 - c) + 1) = (List.range n).length + (p + 1) := by
      rw [List.length_range]
      omega
    rw [gap_of_ge around cBound, whole, ← List.rotate_rotate _ (List.range n).length,
      List.rotate_length]

theorem ring_split (cBound : c < n) (pBound : p < n) :
    ∃ passed ahead, ring n c = passed ++ p :: ahead ∧ ring n p = ahead ++ passed ++ [p] ∧
      ∀ q ∈ passed, gap n c q < gap n c p := by
  have inside : gap n c p < (ring n c).length := by
    rw [ring_length]
    exact gap_lt c p cBound
  have stop : (ring n c)[gap n c p] = p :=
    gap_inj cBound (mem_ring.mp (List.getElem_mem inside)) pBound (gap_getElem cBound inside)
  have split : (ring n c).drop (gap n c p) = p :: (ring n c).drop (gap n c p + 1) := by
    rw [List.drop_eq_getElem_cons inside, stop]
  refine ⟨(ring n c).take (gap n c p), (ring n c).drop (gap n c p + 1), ?_, ?_, fun q member => ?_⟩
  · rw [← split, List.take_append_drop]
  · rw [ring_rotate cBound pBound, List.rotate_eq_drop_append_take inside,
      List.take_succ_eq_append_getElem inside, stop, List.append_assoc]
  · obtain ⟨i, bound, rfl⟩ := List.mem_take_iff_getElem.mp member
    rw [gap_getElem cBound]
    omega

theorem ring_eq (cBound : c < n) : ring n c = behind n c ++ [c] := by
  obtain ⟨passed, ahead, -, whole, -⟩ := ring_split cBound cBound
  rw [behind, whole, List.dropLast_concat]

theorem not_mem_behind (cBound : c < n) : c ∉ behind n c := by
  have nodup : (ring n c).Nodup := ring_nodup
  rw [ring_eq cBound, List.nodup_append] at nodup
  exact fun member => nodup.2.2 c member c (List.mem_singleton_self c) rfl

theorem IsNext.ring {wanted : Nat → Prop} [DecidablePred wanted] (cBound : c < n)
    (next : IsNext n wanted c p) :
    (Rotation.ring n c).filter wanted = p :: (behind n p).filter wanted := by
  obtain ⟨passed, ahead, here, there, nearer⟩ := ring_split cBound next.bound
  have skipped : passed.filter wanted = [] := by
    rw [List.filter_eq_nil_iff]
    intro q member found
    have bound : q < n := mem_ring.mp (here ▸ List.mem_append_left _ member)
    have first := next.first q bound (of_decide_eq_true found)
    have := nearer q member
    omega
  rw [behind, here, there, List.dropLast_concat, List.filter_append, List.filter_append, skipped,
    List.nil_append, List.append_nil, List.filter_cons_of_pos (by simpa using next.stop)]

end Ring

end Rotation
