import Mathlib.Algebra.Order.Group.Unbundled.Int
import Mathlib.Tactic.SplitIfs

/-! The deadlines of `rpcc::call1`. `time_t` and `long` are integers without a bound. -/
namespace Yfs.Rpc

structure Timespec where
  tvSec : ℤ
  tvNsec : ℤ
  deriving DecidableEq

/-- Nanoseconds. -/
def Timespec.total (a : Timespec) : ℤ := a.tvSec * 1000000000 + a.tvNsec

/-- What `pthread_cond_timedwait` takes; anything else is `EINVAL`. -/
def Timespec.Normalised (a : Timespec) : Prop := 0 ≤ a.tvNsec ∧ a.tvNsec < 1000000000

instance (a : Timespec) : Decidable a.Normalised := inferInstanceAs (Decidable (_ ∧ _))

def cmpTimespec (a b : Timespec) : ℤ :=
  if a.tvSec > b.tvSec then 1
  else if a.tvSec < b.tvSec then -1
  else if a.tvNsec > b.tvNsec then 1
  else if a.tvNsec < b.tvNsec then -1
  else 0

def carry : ℕ → Timespec → Timespec
  | 0, r => r
  | n + 1, r => if r.tvNsec > 1000000000 then carry n ⟨r.tvSec + 1, r.tvNsec - 1000000000⟩ else r

/-- `b` milliseconds later; `none` is the failed `VERIFY`. -/
def addTimespec (a : Timespec) (b : ℤ) : Option Timespec :=
  let r : Timespec := ⟨a.tvSec + b.tdiv 1000, a.tvNsec + b.tmod 1000 * 1000000⟩
  if r.tvNsec ≥ 0 then some (carry (r.tvNsec / 1000000000).toNat r) else none

theorem carry_total (n : ℕ) (r : Timespec) : (carry n r).total = r.total := by
  induction n generalizing r with
  | zero => rfl
  | succ n ih =>
    rw [carry]
    split_ifs
    · rw [ih]
      change (r.tvSec + 1) * 1000000000 + (r.tvNsec - 1000000000) = r.tvSec * 1000000000 + r.tvNsec
      omega
    · rfl

theorem carry_le (n : ℕ) (r : Timespec) (hn : r.tvNsec / 1000000000 ≤ n) :
    (carry n r).tvNsec ≤ 1000000000 := by
  induction n generalizing r with
  | zero =>
    rw [carry]
    omega
  | succ n ih =>
    rw [carry]
    split_ifs with h
    · apply ih
      change (r.tvNsec - 1000000000) / 1000000000 ≤ n
      omega
    · exact not_lt.mp h

theorem carry_pos (n : ℕ) (r : Timespec) (h : 0 < r.tvNsec) : 0 < (carry n r).tvNsec := by
  induction n generalizing r with
  | zero => exact h
  | succ n ih =>
    rw [carry]
    split_ifs with hgt
    · apply ih
      change 0 < r.tvNsec - 1000000000
      omega
    · exact h

theorem carry_zero (n : ℕ) (r : Timespec) (h : r.tvNsec = 0) : carry n r = r := by
  cases n with
  | zero => rfl
  | succ n =>
    rw [carry, if_neg]
    omega

/-- The sum is exact, and it is normalised unless the nanoseconds add up to one second. -/
theorem addTimespec_spec {a : Timespec} {b : ℤ} (ha : a.Normalised) (hb : 0 ≤ b) :
    ∃ r, addTimespec a b = some r ∧ r.total = a.total + b * 1000000 ∧ 0 ≤ r.tvNsec ∧
      (r.tvNsec < 1000000000 ↔ a.tvNsec + b % 1000 * 1000000 ≠ 1000000000) := by
  obtain ⟨hnonneg,hlt⟩ := ha
  let s : Timespec := ⟨a.tvSec + b / 1000, a.tvNsec + b % 1000 * 1000000⟩
  have hs : s.tvNsec = a.tvNsec + b % 1000 * 1000000 := rfl
  have hs0 : s.tvNsec ≥ 0 := by omega
  have hadd : addTimespec a b = some (carry (s.tvNsec / 1000000000).toNat s) := by
    simp only [addTimespec, Int.tdiv_eq_ediv_of_nonneg hb, Int.tmod_eq_emod_of_nonneg hb]
    exact if_pos hs0
  refine ⟨_, hadd, ?_, ?_⟩
  · rw [carry_total]
    change (a.tvSec + b / 1000) * 1000000000 + (a.tvNsec + b % 1000 * 1000000) =
      a.tvSec * 1000000000 + a.tvNsec + b * 1000000
    omega
  · rw [← hs]
    by_cases hz : s.tvNsec = 0
    · rw [carry_zero _ s hz]
      omega
    · have htotal := carry_total (s.tvNsec / 1000000000).toNat s
      have hle := carry_le (s.tvNsec / 1000000000).toNat s (Int.self_le_toNat _)
      have hpos := carry_pos (s.tvNsec / 1000000000).toNat s (by omega)
      -- the loop takes whole seconds off, and there are less than two
      rw [Timespec.total, Timespec.total] at htotal
      omega

theorem cmpTimespec_eq_sign {a b : Timespec} (ha : a.Normalised) (hb : b.Normalised) :
    cmpTimespec a b = (a.total - b.total).sign := by
  obtain ⟨ha0,ha⟩ := ha
  obtain ⟨hb0,hb⟩ := hb
  have hgt : a.total > b.total ↔ a.tvSec > b.tvSec ∨ (a.tvSec = b.tvSec ∧ a.tvNsec > b.tvNsec) := by
    rw [Timespec.total, Timespec.total]
    omega
  have hlt : a.total < b.total ↔ a.tvSec < b.tvSec ∨ (a.tvSec = b.tvSec ∧ a.tvNsec < b.tvNsec) := by
    rw [Timespec.total, Timespec.total]
    omega
  rcases lt_trichotomy a.total b.total with h | h | h
  · rw [Int.sign_eq_neg_one_of_neg (by omega), cmpTimespec]
    rw [hlt] at h
    split_ifs <;> omega
  · rw [h, sub_self, Int.sign_zero, cmpTimespec]
    split_ifs <;> omega
  · rw [Int.sign_eq_one_of_pos (by omega), cmpTimespec]
    replace h := hgt.mp h
    split_ifs <;> omega

/-- No exact second comes up in the carry loop, which would leave it as it is. -/
def Carries (a : Timespec) (b : ℤ) : Prop := a.tvNsec + b % 1000 * 1000000 ≠ 1000000000

instance (a : Timespec) (b : ℤ) : Decidable (Carries a b) := inferInstanceAs (Decidable (_ ≠ _))

/-- `add_timespec` is exact. It is normalised, and `cmp_timespec` compares the totals, where
the nanoseconds do not add up to exactly one second. -/
theorem add_timespec_exact (a : Timespec) (b : ℤ) (ha : a.Normalised) (hb : 0 ≤ b) :
    ∃ r, addTimespec a b = some r ∧ r.total = a.total + b * 1000000 ∧ (r.Normalised ↔ Carries a b) ∧
      ∀ a' b' r', a'.Normalised → 0 ≤ b' → addTimespec a' b' = some r' → Carries a b →
      Carries a' b' →
        cmpTimespec r r' = (r.total - r'.total).sign := by
  obtain ⟨r,hr,htotal,hnonneg,hiff⟩ := addTimespec_spec ha hb
  have hnorm : r.Normalised ↔ Carries a b := by
    rw [Timespec.Normalised, and_iff_right hnonneg]
    exact hiff
  refine ⟨r, hr, htotal, hnorm, ?_⟩
  intro a' b' r' ha' hb' hr' hc hc'
  obtain ⟨q,hq,_,hq0,hqiff⟩ := addTimespec_spec ha' hb'
  obtain rfl : r' = q := Option.some.inj (hr'.symm.trans hq)
  exact cmpTimespec_eq_sign (hnorm.mpr hc) ⟨hq0, hqiff.mpr hc'⟩

/-- Across a second. -/
theorem add_timespec_exact_second :
    ∃ r, addTimespec ⟨1, 1000001⟩ 999 = some r ∧
      r.total = Timespec.total ⟨1, 1000001⟩ + 999 * 1000000 ∧ r.Normalised := by
  obtain ⟨r,hr,htotal,hnorm,_⟩ := add_timespec_exact ⟨1, 1000001⟩ 999 (by decide) (by decide)
  exact ⟨r, hr, htotal, hnorm.mpr (by decide)⟩

/-- At the second the sum stays behind an equal time. -/
theorem add_timespec_full_second :
    ∃ r r', addTimespec ⟨1, 1000000⟩ 999 = some r ∧ addTimespec ⟨2, 0⟩ 0 = some r' ∧
      ¬ r.Normalised ∧ r.total = r'.total ∧ cmpTimespec r r' = -1 :=
  ⟨⟨1, 1000000000⟩, ⟨2, 0⟩, by decide, by decide, by decide, by decide, by decide⟩

end Yfs.Rpc
