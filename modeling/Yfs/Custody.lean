import Mathlib.Algebra.BigOperators.Group.List.Basic
import Mathlib.Algebra.GroupWithZero.Nat
import Mathlib.Data.List.Nodup
import Mathlib.Data.List.Perm.Basic

namespace Yfs.Custody

variable {κ β : Type*} [DecidableEq κ] [DecidableEq β]

/-- All that has been given away and all that is kept at the places `keys`. -/
def held (given : List β) (keys : List κ) (f : κ → List β) : List β := given ++ keys.flatMap f

/-- Given away once and kept nowhere, or kept in one place, once, and not given away. -/
def Once (given : List β) (f : κ → List β) (b : β) : Prop :=
  given.count b = 1 ∧ (∀ n, (f n).count b = 0) ∨
    given.count b = 0 ∧ ∃ n, (f n).count b = 1 ∧ ∀ m, m ≠ n → (f m).count b = 0

section
variable {given : List β} {keys : List κ} {f g : κ → List β} {n : κ} {b : β} {gone new : List β}

omit [DecidableEq κ] in
theorem count_held :
    (held given keys f).count b = given.count b + (keys.map fun n => (f n).count b).sum := by
  rw [held, List.count_append, List.count_flatMap]
  rfl

/-- One place changes: things go from it, some of them to be given away, and things come. -/
theorem held_perm (given out : List β) (hkeys : keys.Nodup) (hn : n ∈ keys)
    (hother : ∀ m, m ≠ n → g m = f m) (h : (out ++ g n ++ gone).Perm (f n ++ new)) :
    (held (given ++ out) keys g ++ gone).Perm (held given keys f ++ new) := by
  -- only the place `n` changes: take it out of the list of places
  have hsplit := List.perm_cons_erase hn
  have hrest : (keys.erase n).flatMap g = (keys.erase n).flatMap f := by
    refine List.flatMap_congr fun m hm => hother m ?_
    rintro rfl
    exact hkeys.not_mem_erase hm
  have hg : (keys.flatMap g).Perm (g n ++ (keys.erase n).flatMap f) := by
    rw [← hrest]
    exact hsplit.flatMap_right g
  have hf : (keys.flatMap f).Perm (f n ++ (keys.erase n).flatMap f) := hsplit.flatMap_right f
  refine List.perm_iff_count.mpr fun b => ?_
  have hgb := hg.count_eq b
  have hfb := hf.count_eq b
  have hb := h.count_eq b
  simp only [held, List.count_append] at *
  omega

omit [DecidableEq κ] [DecidableEq β] in
/-- All lists of places that leave out only empty ones hold the same. -/
theorem held_perm_keys (given : List β) {keys' : List κ} (hkeys : keys.Nodup) (hkeys' : keys'.Nodup)
    (hcovers : ∀ n, n ∉ keys → f n = []) (hcovers' : ∀ n, n ∉ keys' → f n = []) :
    (held given keys f).Perm (held given keys' f) := by
  have hfull : ∀ l : List κ, l.flatMap f = (l.filter fun n => f n ≠ []).flatMap f := by
    intro l
    induction l with
    | nil => rfl
    | cons n l ih => by_cases hn : f n = [] <;> simp [hn, ih]
  have hsame : (keys.filter fun n => f n ≠ []).Perm (keys'.filter fun n => f n ≠ []) := by
    refine (List.perm_ext_iff_of_nodup (hkeys.filter _) (hkeys'.filter _)).mpr fun n => ?_
    simp only [List.mem_filter, decide_eq_true_eq]
    exact and_congr_left fun hn => iff_of_true (not_imp_comm.mp (hcovers n) hn)
      (not_imp_comm.mp (hcovers' n) hn)
  rw [held, held, hfull keys, hfull keys']
  exact (hsame.flatMap_right f).append_left given

section
variable (hcovers : ∀ n, n ∉ keys → f n = [])
include hcovers

/-- The places outside `keys` are empty, so what is kept is counted over `keys`. -/
theorem sum_count_eq_zero_iff : (keys.map fun n => (f n).count b).sum = 0 ↔
    ∀ n, (f n).count b = 0 := by
  rw [List.sum_eq_zero_iff_forall_eq_nat]
  constructor
  · intro h n
    by_cases hn : n ∈ keys
    · exact h _ (List.mem_map_of_mem hn)
    · rw [hcovers n hn, List.count_nil]
  · intro h x hx
    obtain ⟨n,-,rfl⟩ := List.mem_map.mp hx
    exact h n

theorem sum_count_eq_one_iff (hkeys : keys.Nodup) : (keys.map fun n => (f n).count b).sum = 1 ↔
    ∃ n, (f n).count b = 1 ∧ ∀ m, m ≠ n → (f m).count b = 0 := by
  have hsplit : ∀ n ∈ keys, (keys.map fun n => (f n).count b).sum =
      (f n).count b + ((keys.erase n).map fun n => (f n).count b).sum :=
    fun n hn => ((List.perm_cons_erase hn).map fun n => (f n).count b).sum_eq
  have hrest : ∀ n, ((keys.erase n).map fun n => (f n).count b).sum = 0 ↔
      ∀ m ∈ keys, m ≠ n → (f m).count b = 0 := by
    intro n
    rw [List.sum_eq_zero_iff_forall_eq_nat, List.forall_mem_map]
    simp only [hkeys.mem_erase_iff, and_imp]
    exact ⟨fun h m hm hne => h m hne hm,fun h m hne hm => h m hm hne⟩
  constructor
  · intro h
    -- some place has it, and then no other one can
    have hpos : ∃ n, (f n).count b ≠ 0 := by
      by_contra hzero
      rw [(sum_count_eq_zero_iff hcovers).mpr (not_exists_not.mp hzero)] at h
      cases h
    obtain ⟨n,hn⟩ := hpos
    have hmem : n ∈ keys := by
      by_contra hout
      exact hn (by rw [hcovers n hout, List.count_nil])
    have hsum := hsplit n hmem
    refine ⟨n,by omega,fun m hne => ?_⟩
    by_cases hm : m ∈ keys
    · exact (hrest n).mp (by omega) m hm hne
    · rw [hcovers m hm, List.count_nil]
  · rintro ⟨n,hone,hzero⟩
    have hmem : n ∈ keys := by
      by_contra hout
      rw [hcovers n hout, List.count_nil] at hone
      cases hone
    rw [hsplit n hmem, hone, (hrest n).mpr fun m _ => hzero m]

theorem count_held_eq_one_iff (hkeys : keys.Nodup) : (held given keys f).count b = 1 ↔
    Once given f b := by
  rw [count_held, Once, ← sum_count_eq_zero_iff hcovers, ← sum_count_eq_one_iff hcovers hkeys]
  omega

end

end

/-- No thing is there twice, and all of them have come. -/
structure Numbered (count : ℕ) (things : List ℕ) : Prop where
  nodup : things.Nodup
  lt : ∀ b ∈ things, b < count

/-- All that have come are there. -/
def All (count : ℕ) (things : List ℕ) : Prop := ∀ b < count, b ∈ things

section
variable {count : ℕ} {things things' gone : List ℕ}

theorem Numbered.snoc (h : Numbered count things) : Numbered (count + 1) (things ++ [count]) := by
  have hnew : count ∉ things := fun hmem => absurd (h.lt count hmem) (Nat.lt_irrefl count)
  refine ⟨List.nodup_append.mpr ⟨h.nodup,List.nodup_singleton count,?_⟩,fun b hb => ?_⟩
  · rintro a ha b hb rfl
    exact hnew (List.mem_singleton.mp hb ▸ ha)
  · rcases List.mem_append.mp hb with hb | hb
    · exact Nat.lt_succ_of_lt (h.lt b hb)
    · rw [List.mem_singleton.mp hb]
      exact Nat.lt_succ_self count

theorem all_snoc (h : Numbered count things) : All (count + 1) (things ++ [count]) ↔
    All count things := by
  constructor
  · intro hall b hb
    rcases List.mem_append.mp (hall b (Nat.lt_succ_of_lt hb)) with hmem | hmem
    · exact hmem
    · exact absurd hb (List.mem_singleton.mp hmem ▸ Nat.lt_irrefl count)
  · intro hall b hb
    rcases Nat.lt_succ_iff_lt_or_eq.mp hb with hlt | rfl
    · exact List.mem_append_left _ (hall b hlt)
    · exact List.mem_append_right _ List.mem_cons_self

/-- Things go: all are there after it if and only if all were there and none has gone. -/
theorem Numbered.go (h : Numbered count things) (hperm : (things' ++ gone).Perm things) :
    Numbered count things' ∧ (All count things' ↔ All count things ∧ gone = []) := by
  have hnodup := hperm.nodup_iff.mpr h.nodup
  refine ⟨⟨(List.nodup_append.mp hnodup).1,fun b hb => ?_⟩,?_,?_⟩
  · exact h.lt b (hperm.mem_iff.mp (List.mem_append_left _ hb))
  · intro hall
    refine ⟨fun b hb => hperm.mem_iff.mp (List.mem_append_left _ (hall b hb)),?_⟩
    refine List.eq_nil_iff_forall_not_mem.mpr fun b hb => ?_
    have hlt := h.lt b (hperm.mem_iff.mp (List.mem_append_right _ hb))
    exact (List.nodup_append.mp hnodup).2.2 b (hall b hlt) b hb rfl
  · rintro ⟨hall,rfl⟩
    rw [List.append_nil] at hperm
    exact fun b hb => hperm.mem_iff.mpr (hall b hb)

end

end Yfs.Custody
