import Yfs.Directory

namespace Yfs.Paxos

open Dir (Str)

def isamember (m : Str) : List Str → Bool
  | [] => false
  | node :: nodes => if node = m then true else isamember m nodes

theorem isamember_iff (m : Str) (nodes : List Str) : isamember m nodes = true ↔ m ∈ nodes := by
  induction nodes with
  | nil => simp [isamember]
  | cons node nodes ih =>
    rw [isamember, List.mem_cons]
    split
    · next h => exact iff_of_true rfl (.inl h.symm)
    · next h => rw [ih, or_iff_right (Ne.symm h)]

/-- `n` after the loop of `majority`. -/
def countMembers (l1 l2 : List Str) : ℕ :=
  l1.foldl (fun n node => if isamember node l2 = true then n + 1 else n) 0

/-- `proposer::majority`: the servers in `l2` contain a majority of the servers in `l1`. -/
def majority (l1 l2 : List Str) : Bool :=
  decide (countMembers l1 l2 ≥ (l1.length >>> 1) + 1)

theorem foldl_count (l1 l2 : List Str) (n : ℕ) :
    l1.foldl (fun n node => if isamember node l2 = true then n + 1 else n) n =
      n + l1.countP (isamember · l2) := by
  induction l1 generalizing n with
  | nil => rfl
  | cons node l1 ih =>
    rw [List.foldl_cons, ih, List.countP_cons]
    split <;> omega

theorem countMembers_eq (l1 l2 : List Str) : countMembers l1 l2 = l1.countP (isamember · l2) := by
  rw [countMembers, foldl_count, Nat.zero_add]

/-- The halving rounds down, for an odd and for an even number of positions. -/
theorem majority_iff (l1 l2 : List Str) :
    majority l1 l2 = true ↔ l1.length < 2 * l1.countP (isamember · l2) := by
  rw [majority, decide_eq_true_iff, countMembers_eq, Nat.shiftRight_eq_div_pow]
  omega

theorem countP_and_add_or {α : Type*} (p q : α → Bool) (l : List α) :
    l.countP p + l.countP q = l.countP (fun x => p x && q x) + l.countP (fun x => p x || q x) := by
  induction l with
  | nil => rfl
  | cons x l ih =>
    simp only [List.countP_cons]
    cases p x <;> cases q x <;> simp <;> omega

/-- More than all positions cannot be counted without one that is counted twice. -/
theorem exists_of_countP {α : Type*} {p q : α → Bool} {l : List α}
    (h : l.length < l.countP p + l.countP q) : ∃ x ∈ l, p x = true ∧ q x = true := by
  have hor : l.countP (fun x => p x || q x) ≤ l.length := List.countP_le_length
  rw [countP_and_add_or] at h
  have hpos : 0 < l.countP (fun x => p x && q x) := by omega
  obtain ⟨x,hx,hboth⟩ := List.countP_pos_iff.mp hpos
  exact ⟨x, hx, Bool.and_eq_true_iff.mp hboth⟩

theorem majority_inter {l a b : List Str} (ha : majority l a = true) (hb : majority l b = true) :
    ∃ m ∈ l, m ∈ a ∧ m ∈ b := by
  rw [majority_iff] at ha hb
  have hmore : l.length < l.countP (isamember · a) + l.countP (isamember · b) := by omega
  obtain ⟨m,hm,hma,hmb⟩ := exists_of_countP hmore
  exact ⟨m, hm, (isamember_iff m a).mp hma, (isamember_iff m b).mp hmb⟩

theorem majority_mono {l a b : List Str} (h : ∀ m ∈ l, m ∈ a → m ∈ b) (ha : majority l a = true) :
    majority l b = true := by
  rw [majority_iff] at ha ⊢
  have hle : l.countP (isamember · a) ≤ l.countP (isamember · b) := by
    apply List.countP_mono_left
    intro m hm hma
    rw [isamember_iff] at hma ⊢
    exact h m hm hma
  omega

theorem majority_nil (a : List Str) : majority [] a = false := rfl

/-- Two quorums of a view have a node of the view in common. Whether some nodes are a
quorum is a matter of which nodes of the view are among them; none is of an empty view. -/
theorem majority_quorums (l a b : List Str) :
    (majority l a = true → majority l b = true → ∃ m ∈ l, m ∈ a ∧ m ∈ b) ∧
    majority [] a = false ∧
    ((∀ m ∈ l, m ∈ a ↔ m ∈ b) → majority l a = majority l b) ∧
    (a ⊆ b → majority l a = true → majority l b = true) := by
  refine ⟨majority_inter, majority_nil a, ?_, ?_⟩
  · intro hsame
    rw [Bool.eq_iff_iff]
    exact ⟨majority_mono fun m hm => (hsame m hm).mp, majority_mono fun m hm => (hsame m hm).mpr⟩
  · intro hsub
    exact majority_mono fun m _ hma => hsub hma

/-- Two of three nodes are a quorum, also with an answer twice and one of a stranger. -/
theorem majority_quorums_three :
    ∃ m ∈ [['a'], ['b'], ['c']], m ∈ [['c'], ['a'], ['a']] ∧ m ∈ [['x'], ['b'], ['c']] :=
  (majority_quorums _ _ _).1 (by decide) (by decide)

end Yfs.Paxos
