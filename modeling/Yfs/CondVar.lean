import Mathlib.Data.List.Nodup
import Mathlib.Data.List.Perm.Basic
import Mathlib.Tactic.Common

/-! Condition variables. A signal wakes one of the threads that are parked, whichever
it likes, and is lost if there is none; a thread may also wake up without a signal. -/
namespace Yfs

/-- `woken` are the threads that have been woken up and have not looked at what they
wait for since. A thread is in one place at a time. -/
structure CondVar (τ : Type*) where
  parked : List τ
  woken : List τ
  nodup : (parked ++ woken).Nodup

namespace CondVar
variable {τ : Type*} [DecidableEq τ]

def empty : CondVar τ := ⟨[], [], List.nodup_nil⟩

/-- The thread goes on, woken up or not. -/
def resume (q : CondVar τ) (t : τ) : CondVar τ :=
  ⟨q.parked.erase t, q.woken.erase t,
    q.nodup.sublist (List.erase_sublist.append List.erase_sublist)⟩

/-- The thread parks, once more if it was woken up. -/
def wait (q : CondVar τ) (t : τ) : CondVar τ where
  parked := t :: (q.resume t).parked
  woken := (q.resume t).woken
  nodup := by
    refine List.nodup_cons.mpr ⟨?_, (q.resume t).nodup⟩
    simp [resume, (List.Nodup.of_append_left q.nodup).mem_erase_iff,
      (List.Nodup.of_append_right q.nodup).mem_erase_iff]

/-- The thread has looked at what it waits for, and parks or goes on. -/
def settle (q : CondVar τ) (t : τ) (parks : Bool) : CondVar τ :=
  if parks = true then q.wait t else q.resume t

/-- `w` is the thread that wakes up. -/
def signal (q : CondVar τ) (w : Option τ) : Option (CondVar τ) :=
  match w with
  | none => if q.parked = [] then some q else none
  | some t =>
    if h : t ∈ q.parked then
      some ⟨q.parked.erase t, t :: q.woken,
        ((List.perm_middle.trans ((List.perm_cons_erase h).symm.append_right _)).nodup_iff).mpr
          q.nodup⟩
    else none

def broadcast (q : CondVar τ) : CondVar τ := ⟨[], q.parked ++ q.woken, q.nodup⟩

/-- A thread with property `p` is parked, or woken. -/
def Parked (q : CondVar τ) (p : τ → Prop) : Prop := ∃ t ∈ q.parked, p t

def Woken (q : CondVar τ) (p : τ → Prop) : Prop := ∃ t ∈ q.woken, p t

def Waits (q : CondVar τ) (t : τ) : Prop := t ∈ q.parked ∨ t ∈ q.woken

instance decidableWaits (q : CondVar τ) (t : τ) : Decidable (q.Waits t) :=
  inferInstanceAs (Decidable (t ∈ q.parked ∨ t ∈ q.woken))

/-- No thread with the property is left parked unless another one is awake. -/
def Covered (q : CondVar τ) (p : τ → Prop) : Prop := q.Parked p → q.Woken p

/-- If a thread with the property is parked, the signal wakes such a thread. -/
def WakesRight (q : CondVar τ) (p : τ → Prop) (w : Option τ) : Prop := q.Parked p → ∃ t ∈ w, p t

instance decidableWakesRight (q : CondVar τ) (p : τ → Prop) [DecidablePred p] (w : Option τ) :
    Decidable (q.WakesRight p w) :=
  inferInstanceAs (Decidable ((∃ t ∈ q.parked, p t) → ∃ t ∈ w, p t))

/-- A signal is lost or moves one thread. -/
theorem signal_cases (q q' : CondVar τ) (w : Option τ) (h : q.signal w = some q') :
    (w = none ∧ q.parked = [] ∧ q' = q) ∨
    ∃ t, w = some t ∧ t ∈ q.parked ∧ q'.parked = q.parked.erase t ∧ q'.woken = t :: q.woken := by
  unfold signal at h
  split at h
  · split_ifs at h with hp
    cases h
    exact Or.inl ⟨rfl, hp, rfl⟩
  · next t =>
    split_ifs at h with hp
    cases h
    exact Or.inr ⟨t, rfl, hp, rfl, rfl⟩

theorem exists_signal (q : CondVar τ) : ∃ w q', q.signal w = some q' := by
  cases hp : q.parked with
  | nil => exact ⟨none, q, by simp [signal, hp]⟩
  | cons t ts =>
    have ht : t ∈ q.parked := by simp [hp]
    exact ⟨some t, _, dif_pos ht⟩

section signals
variable (q q' : CondVar τ) (w : Option τ) (h : q.signal w = some q')
include h

theorem parked_of_signal (p : τ → Prop) (hp : q'.Parked p) : q.Parked p := by
  rcases signal_cases q q' w h with ⟨_,_,rfl⟩ | ⟨t,_,_,hparked,_⟩
  · exact hp
  · obtain ⟨u,hu,hpu⟩ := hp
    rw [hparked] at hu
    exact ⟨u, List.mem_of_mem_erase hu, hpu⟩

/-- A signal for others does no harm. -/
theorem covered_signal (p : τ → Prop) (hc : q.Covered p) : q'.Covered p := by
  intro hp
  obtain ⟨u,hu,hpu⟩ := hc (parked_of_signal q q' w h p hp)
  rcases signal_cases q q' w h with ⟨_,_,rfl⟩ | ⟨t,_,_,_,hwoken⟩
  · exact ⟨u, hu, hpu⟩
  · -- who was awake still is
    exact ⟨u, hwoken ▸ List.mem_cons_of_mem t hu, hpu⟩

theorem covered_of_wakesRight (p : τ → Prop) (hw : q.WakesRight p w) : q'.Covered p := by
  intro hp
  obtain ⟨t,ht,hpt⟩ := hw (parked_of_signal q q' w h p hp)
  rcases signal_cases q q' w h with ⟨rfl,_,_⟩ | ⟨u,rfl,_,_,hwoken⟩
  · cases ht
  · cases ht
    exact ⟨t, hwoken ▸ List.mem_cons_self, hpt⟩

theorem waits_of_signal (t : τ) (ht : q'.Waits t) : q.Waits t := by
  rcases signal_cases q q' w h with ⟨_,_,rfl⟩ | ⟨u,_,hu,hparked,hwoken⟩
  · exact ht
  · rcases ht with hp | hw
    · rw [hparked] at hp
      exact Or.inl (List.mem_of_mem_erase hp)
    · rw [hwoken] at hw
      rcases List.mem_cons.mp hw with rfl | hw
      · exact Or.inl hu
      · exact Or.inr hw

end signals

theorem waits_resume (q : CondVar τ) (t u : τ) (h : (q.resume t).Waits u) : u ≠ t ∧ q.Waits u := by
  have hp := (List.Nodup.of_append_left q.nodup).mem_erase_iff (a := u) (b := t)
  have hw := (List.Nodup.of_append_right q.nodup).mem_erase_iff (a := u) (b := t)
  rcases h with h | h
  · exact ⟨(hp.mp h).1, Or.inl (hp.mp h).2⟩
  · exact ⟨(hw.mp h).1, Or.inr (hw.mp h).2⟩

theorem waits_settle (q : CondVar τ) (t u : τ) (parks : Bool) (h : (q.settle t parks).Waits u) :
    u ≠ t ∧ q.Waits u ∨ u = t ∧ parks = true := by
  cases parks with
  | false => exact Or.inl (waits_resume q t u h)
  | true =>
    rcases h with h | h
    · rcases List.mem_cons.mp h with rfl | h
      · exact Or.inr ⟨rfl, rfl⟩
      · exact Or.inl (waits_resume q t u (Or.inl h))
    · exact Or.inl (waits_resume q t u (Or.inr h))

theorem waits_wait (q : CondVar τ) (t u : τ) (h : (q.wait t).Waits u) : u = t ∨ q.Waits u := by
  rcases waits_settle q t u true h with ⟨-,hu⟩ | ⟨hu,-⟩
  · exact Or.inr hu
  · exact Or.inl hu

theorem Waits.resume {q : CondVar τ} {t u : τ} (h : q.Waits u) (hne : u ≠ t) :
    (q.resume t).Waits u :=
  h.imp (List.mem_erase_of_ne hne).mpr (List.mem_erase_of_ne hne).mpr

theorem Waits.wait {q : CondVar τ} {u : τ} (h : q.Waits u) (t : τ) : (q.wait t).Waits u := by
  by_cases hne : u = t
  · exact Or.inl (hne ▸ List.mem_cons_self)
  · exact (h.resume hne).imp_left (List.mem_cons_of_mem _)

theorem woken_wait {q : CondVar τ} {t u : τ} (h : u ∈ (q.wait t).woken) : u ≠ t ∧ u ∈ q.woken :=
  (List.Nodup.of_append_right q.nodup).mem_erase_iff.mp h

theorem covered_resume (q : CondVar τ) (t : τ) (p : τ → Prop) (hp : ¬ p t) (h : q.Covered p) :
    (q.resume t).Covered p := by
  rintro ⟨u,hu,hpu⟩
  obtain ⟨v,hv,hpv⟩ := h ⟨u, List.mem_of_mem_erase hu, hpu⟩
  -- the thread that is awake has the property, so it is not the one that goes
  have hne : v ≠ t := by
    intro he
    exact hp (he ▸ hpv)
  exact ⟨v, (List.mem_erase_of_ne hne).mpr hv, hpv⟩

theorem covered_settle (q : CondVar τ) (t : τ) (parks : Bool) (p : τ → Prop) (hp : ¬ p t)
    (h : q.Covered p) : (q.settle t parks).Covered p := by
  cases parks with
  | false => exact covered_resume q t p hp h
  | true =>
    rintro ⟨u,hu,hpu⟩
    rcases List.mem_cons.mp hu with rfl | hu
    · exact absurd hpu hp
    · exact covered_resume q t p hp h ⟨u, hu, hpu⟩

omit [DecidableEq τ] in
/-- All that counts of `p` is which of the waiting threads have it. -/
theorem Covered.congr {q : CondVar τ} {p p' : τ → Prop} (h : q.Covered p)
    (hp : ∀ t, q.Waits t → (p t ↔ p' t)) : q.Covered p' := by
  rintro ⟨t,ht,hpt⟩
  obtain ⟨u,hu,hpu⟩ := h ⟨t, ht, (hp t (Or.inl ht)).mpr hpt⟩
  exact ⟨u, hu, (hp u (Or.inr hu)).mp hpu⟩

theorem parked_resume {q : CondVar τ} {t : τ} (h : t ∉ q.parked) : (q.resume t).parked = q.parked :=
  List.erase_of_not_mem h

theorem parked_wait {q : CondVar τ} {t : τ} (h : t ∉ q.parked) :
    (q.wait t).parked = t :: q.parked :=
  congrArg (t :: ·) (parked_resume h)

theorem woken_le_resume (q : CondVar τ) (t : τ) :
    q.woken.length ≤ (q.resume t).woken.length + 1 := by
  have h : (q.resume t).woken = q.woken.erase t := rfl
  rw [h, List.length_erase]
  split_ifs <;> omega

theorem length_signal {q q' : CondVar τ} {w : Option τ} (h : q.signal w = some q') :
    (q.parked = [] ∧ q' = q) ∨
    (q'.parked.length + 1 = q.parked.length ∧ q'.woken.length = q.woken.length + 1) := by
  rcases signal_cases q q' w h with ⟨_,hp,rfl⟩ | ⟨t,_,ht,hp,hw⟩
  · exact .inl ⟨hp,rfl⟩
  · have hpos : 0 < q.parked.length := List.length_pos_of_mem ht
    rw [hp, hw, List.length_erase_of_mem ht, List.length_cons]
    exact .inr ⟨by omega,rfl⟩

theorem parked_signal_le {q q' : CondVar τ} {w : Option τ} (h : q.signal w = some q') :
    q'.parked.length ≤ q.parked.length ∧ q.parked.length ≤ q'.parked.length + 1 := by
  rcases length_signal h with ⟨-,rfl⟩ | ⟨hone,-⟩ <;> omega

/-- While somebody is still parked, the signal has sent one more on its way. -/
theorem woken_signal {q q' : CondVar τ} {w : Option τ} (h : q.signal w = some q')
    (hparked : q'.parked ≠ []) :
    q.parked ≠ [] ∧ q'.woken.length = q.woken.length + 1 := by
  rcases length_signal h with ⟨hnone,rfl⟩ | ⟨hone,hwoken⟩
  · exact absurd hnone hparked
  · refine ⟨fun hnil => ?_,hwoken⟩
    rw [hnil] at hone
    exact nomatch hone

theorem waits_resume_iff {q : CondVar τ} {t u : τ} : (q.resume t).Waits u ↔ u ≠ t ∧ q.Waits u :=
  ⟨waits_resume q t u,fun h => h.2.resume h.1⟩

theorem waits_wait_iff {q : CondVar τ} {t u : τ} : (q.wait t).Waits u ↔ u = t ∨ q.Waits u := by
  refine ⟨waits_wait q t u,fun h => ?_⟩
  rcases h with rfl | h
  · exact Or.inl List.mem_cons_self
  · exact h.wait t

theorem waits_signal_iff {q q' : CondVar τ} {w : Option τ} (h : q.signal w = some q') {u : τ} :
    q'.Waits u ↔ q.Waits u := by
  refine ⟨waits_of_signal q q' w h u,fun hu => ?_⟩
  rcases signal_cases q q' w h with ⟨_,_,rfl⟩ | ⟨t,_,_,hp,hw⟩
  · exact hu
  · rw [Waits, hp, hw]
    by_cases hut : u = t
    · exact Or.inr (hut ▸ List.mem_cons_self)
    · exact hu.imp (List.mem_erase_of_ne hut).mpr (List.mem_cons_of_mem _)

omit [DecidableEq τ] in
theorem waits_broadcast_iff {q : CondVar τ} {u : τ} : q.broadcast.Waits u ↔ q.Waits u := by
  simp only [Waits, broadcast, List.not_mem_nil, false_or, List.mem_append]

/-- The number of threads that wait, parked or not. -/
def size (q : CondVar τ) : ℕ := q.parked.length + q.woken.length

theorem size_wait (q : CondVar τ) (t : τ) : (q.wait t).size = (q.resume t).size + 1 := by
  simp only [size, wait, List.length_cons]
  omega

theorem size_resume_of_not {q : CondVar τ} {t : τ} (h : ¬ q.Waits t) :
    (q.resume t).size = q.size := by
  rw [Waits, not_or] at h
  simp only [size, resume, List.erase_of_not_mem h.1, List.erase_of_not_mem h.2]

theorem size_resume {q : CondVar τ} {t : τ} (h : q.Waits t) : (q.resume t).size + 1 = q.size := by
  have hapart := (List.nodup_append.mp q.nodup).2.2
  rcases h with h | h
  · have hw : t ∉ q.woken := fun hw => hapart t h t hw rfl
    have hpos := List.length_pos_of_mem h
    simp only [size, resume, List.erase_of_not_mem hw, List.length_erase_of_mem h]
    omega
  · have hp : t ∉ q.parked := fun hp => hapart t hp t h rfl
    have hpos := List.length_pos_of_mem h
    simp only [size, resume, List.erase_of_not_mem hp, List.length_erase_of_mem h]
    omega

theorem size_signal {q q' : CondVar τ} {w : Option τ} (h : q.signal w = some q') :
    q'.size = q.size := by
  rcases length_signal h with ⟨-,rfl⟩ | ⟨hone,hwoken⟩
  · rfl
  · rw [size, size]
    omega

omit [DecidableEq τ] in
theorem size_broadcast (q : CondVar τ) : q.broadcast.size = q.size := by
  simp only [size, broadcast, List.length_nil, List.length_append]
  omega

/-- A signal for the only thread that waits leaves nobody parked. -/
theorem parked_signal_nil {q q' : CondVar τ} {w : Option τ} (h : q.signal w = some q')
    (hone : ∀ t u, q.Waits t → q.Waits u → t = u) : q'.parked = [] := by
  rcases signal_cases q q' w h with ⟨_,hnil,rfl⟩ | ⟨t,_,ht,hp,_⟩
  · exact hnil
  · refine List.eq_nil_iff_forall_not_mem.mpr fun u hu => ?_
    rw [hp] at hu
    obtain ⟨hne,hu⟩ := (List.Nodup.of_append_left q.nodup).mem_erase_iff.mp hu
    exact hne (hone u t (Or.inl hu) (Or.inl ht))

end CondVar
end Yfs
