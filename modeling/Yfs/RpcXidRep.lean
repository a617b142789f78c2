import Mathlib.Data.List.Sort
import Mathlib.Tactic.Linarith
import Mathlib.Tactic.SplitIfs

namespace Yfs.Rpc

/-- The range of the source's `unsigned int`. -/
def uintMod : ℕ := 2^32

/-- Insert before the first larger element, or at the end. -/
def insertXid (xid : ℕ) : List ℕ → List ℕ
  | [] => [xid]
  | x :: xs => if xid < x then xid :: x :: xs else x :: insertXid xid xs

/-- The inner loop of the compression, `it` pointing at `x` behind `pre`. It
cannot pop `x` itself: `front() + 1 == *it` is false once `it` is the front. -/
def popFront (x : ℕ) : List ℕ → List ℕ
  | [] => []
  | p :: ps => if (p+1) % uintMod = x then popFront x ps else p :: ps

/-- The outer loop: `pre` is the list before the iterator. -/
def compress : List ℕ → List ℕ → List ℕ
  | pre, [] => pre
  | pre, x :: xs => compress (popFront x pre ++ [x]) xs

def updateXidRep (w : List ℕ) (xid : ℕ) : List ℕ :=
  if xid ≤ w.headD 0 then w
  else
    match insertXid xid w with
    | [] => []
    | f :: rest => compress [f] rest

theorem insertXid_eq (x : ℕ) (w : List ℕ) : insertXid x w = w.orderedInsert (· < ·) x := by
  induction w with
  | nil => rfl
  | cons a as ih => rw [insertXid, ih, List.orderedInsert_cons]

theorem mem_insertXid (x y : ℕ) (w : List ℕ) : y ∈ insertXid x w ↔ y = x ∨ y ∈ w := by
  rw [insertXid_eq, List.mem_orderedInsert]

theorem insertXid_sorted (x : ℕ) (w : List ℕ) (hw : w.Pairwise (· ≤ ·)) :
    (insertXid x w).Pairwise (· ≤ ·) := by
  induction w with
  | nil => exact List.pairwise_singleton _ _
  | cons a as ih =>
    obtain ⟨hle,has⟩ := List.pairwise_cons.mp hw
    simp only [insertXid]
    split_ifs with h
    · refine List.pairwise_cons.mpr ⟨?_, hw⟩
      intro b hb
      rcases List.mem_cons.mp hb with rfl | hb
      · exact h.le
      · exact h.le.trans (hle b hb)
    · refine List.pairwise_cons.mpr ⟨?_, ih has⟩
      intro b hb
      rcases (mem_insertXid x b as).mp hb with rfl | hb
      · omega
      · exact hle b hb

theorem popFront_sublist (x : ℕ) (pre : List ℕ) : (popFront x pre).Sublist pre := by
  induction pre with
  | nil => exact List.Sublist.refl _
  | cons p ps ih =>
    simp only [popFront]
    split_ifs
    · exact ih.cons p
    · exact List.Sublist.refl _

theorem compress_sublist (pre rest : List ℕ) : (compress pre rest).Sublist (pre ++ rest) := by
  induction rest generalizing pre with
  | nil => simp only [compress, List.append_nil, List.Sublist.refl]
  | cons x xs ih =>
    have hpop := (popFront_sublist x pre).append (List.Sublist.refl ([x] ++ xs))
    rw [compress]
    apply (ih (popFront x pre ++ [x])).trans
    rwa [List.append_assoc]

theorem compress_ne_nil (pre rest : List ℕ) (h : pre ≠ []) : compress pre rest ≠ [] := by
  induction rest generalizing pre with
  | nil => exact h
  | cons x xs ih => exact ih _ (by simp)

theorem headD_le_of_sublist {L M : List ℕ} (hL : L.Pairwise (· ≤ ·)) (hsub : M.Sublist L)
    (hM : M ≠ []) :
    L.headD 0 ≤ M.headD 0 := by
  obtain ⟨m,M,rfl⟩ := List.exists_cons_of_ne_nil hM
  cases L with
  | nil => exact absurd hsub.subset (by simp)
  | cons a L =>
    rcases List.mem_cons.mp (hsub.subset List.mem_cons_self) with rfl | hm
    · exact le_rfl
    · exact (List.pairwise_cons.mp hL).1 m hm

theorem updateXidRep_of_lt (f xid : ℕ) (ws : List ℕ) (h : f < xid) :
    insertXid xid (f :: ws) = f :: insertXid xid ws ∧
      updateXidRep (f :: ws) xid = compress [f] (insertXid xid ws) := by
  have hins : insertXid xid (f :: ws) = f :: insertXid xid ws := by
    rw [insertXid, if_neg (by omega)]
  refine ⟨hins, ?_⟩
  rw [updateXidRep, List.headD_cons, if_neg (by omega), hins]

/-- Whatever is reported, the window stays in order and its front never goes back. -/
theorem updateXidRep_front (w : List ℕ) (xid : ℕ) (hne : w ≠ []) (hw : w.Pairwise (· ≤ ·)) :
    updateXidRep w xid ≠ [] ∧ (updateXidRep w xid).Pairwise (· ≤ ·) ∧
      w.headD 0 ≤ (updateXidRep w xid).headD 0 := by
  obtain ⟨f,ws,rfl⟩ := List.exists_cons_of_ne_nil hne
  by_cases hle : xid ≤ f
  · rw [updateXidRep, List.headD_cons, if_pos hle]
    exact ⟨hne, hw, le_rfl⟩
  · obtain ⟨hins,hupd⟩ := updateXidRep_of_lt f xid ws (by omega)
    have hsorted : (f :: insertXid xid ws).Pairwise (· ≤ ·) := hins ▸ insertXid_sorted xid _ hw
    have hsub := compress_sublist [f] (insertXid xid ws)
    have hcne := compress_ne_nil [f] (insertXid xid ws) (List.cons_ne_nil _ _)
    have hfront : f ≤ (compress [f] (insertXid xid ws)).headD 0 :=
      headD_le_of_sublist hsorted hsub hcne
    rw [hupd]
    exact ⟨hcne, hsorted.sublist hsub, hfront⟩

/-- `R` is the set of xids reported so far. The window holds reported xids in
order, and everything up to its front has been reported. -/
structure XidWindowOk (R : ℕ → Prop) (w : List ℕ) : Prop where
  ne_nil : w ≠ []
  sorted : w.Pairwise (· ≤ ·)
  mem : ∀ x ∈ w, R x
  front : ∀ k ≤ w.headD 0, R k

theorem XidWindowOk.mono {R S : ℕ → Prop} {w : List ℕ} (h : XidWindowOk R w)
    (hRS : ∀ x, R x → S x) : XidWindowOk S w :=
  ⟨h.ne_nil, h.sorted, fun x hx => hRS x (h.mem x hx), fun k hk => hRS k (h.front k hk)⟩

theorem popFront_ok (R : ℕ → Prop) (hR : ∀ k, R k → k < uintMod) (x : ℕ) (pre xs : List ℕ)
    (h : XidWindowOk R (pre ++ x :: xs)) : XidWindowOk R (popFront x pre ++ x :: xs) := by
  induction pre with
  | nil => exact h
  | cons p ps ih =>
    simp only [popFront]
    split_ifs with hx
    · apply ih
      have hp : R p := h.mem p (by simp)
      have hsort := List.pairwise_cons.mp h.sorted
      have hpx : p ≤ x := hsort.1 x (by simp)
      have hnext : x = p+1 := by
        have hlt := hR p hp
        by_cases hw : p+1 < uintMod
        · rw [Nat.mod_eq_of_lt hw] at hx
          exact hx.symm
        · have hpe : p+1 = uintMod := by omega
          rw [hpe, Nat.mod_self] at hx
          simp only [uintMod] at hpe
          omega
      have hx' : R x := h.mem x (by simp)
      have hq : (ps ++ x :: xs).headD 0 ≤ x := by
        cases ps with
        | nil => exact le_rfl
        | cons q qs =>
          have hqs := (List.pairwise_cons.mp hsort.2).1
          exact hqs x (by simp)
      refine ⟨by simp, hsort.2, fun y hy => h.mem y (List.mem_cons_of_mem _ hy), ?_⟩
      intro k hk
      rcases Nat.lt_or_ge p k with hpk | hkp
      · have hkx : k = x := by omega
        exact hkx ▸ hx'
      · exact h.front k hkp
    · exact h

theorem compress_ok (R : ℕ → Prop) (hR : ∀ k, R k → k < uintMod) (pre rest : List ℕ)
    (h : XidWindowOk R (pre ++ rest)) : XidWindowOk R (compress pre rest) := by
  induction rest generalizing pre with
  | nil => simpa only [compress, List.append_nil] using h
  | cons x xs ih =>
    simp only [compress]
    apply ih
    simpa only [List.append_assoc, List.singleton_append] using popFront_ok R hR x pre xs h

/-- Reporting an xid of `R` keeps the window sound: in particular an xid that
was never reported stays above the front. -/
theorem updateXidRep_ok (R : ℕ → Prop) (hR : ∀ k, R k → k < uintMod) (w : List ℕ) (xid : ℕ)
    (h : XidWindowOk R w) (hx : R xid) : XidWindowOk R (updateXidRep w xid) := by
  obtain ⟨f,ws,rfl⟩ := List.exists_cons_of_ne_nil h.ne_nil
  by_cases hle : xid ≤ f
  · rw [updateXidRep, List.headD_cons, if_pos hle]
    exact h
  · obtain ⟨hins,hupd⟩ := updateXidRep_of_lt f xid ws (by omega)
    rw [hupd]
    apply compress_ok R hR
    rw [List.singleton_append, ← hins]
    refine ⟨?_, insertXid_sorted xid _ h.sorted, ?_, ?_⟩
    · rw [hins]
      exact List.cons_ne_nil _ _
    · intro y hy
      rcases (mem_insertXid xid y _).mp hy with rfl | hy
      · exact hx
      · exact h.mem y hy
    · rw [hins]
      exact h.front

end Yfs.Rpc
