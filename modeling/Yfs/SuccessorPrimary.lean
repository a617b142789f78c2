import Mathlib.Data.List.Induction
import Yfs.RsmPrimary

namespace Yfs.Rsm

open Dir (Str)

/-- What `config::add` and `config::remove_wo` do to the members. -/
inductive ViewOp
  | add (newM : Str)
  | removeWo (m : Str)
  deriving DecidableEq

def viewOp (mems : List Str) : ViewOp → List Str
  | .add newM => mems ++ [newM]
  | .removeWo m => mems.filter (· ≠ m)

/-- The view of the first node after these changes. -/
def viewAfter (first : Str) (ops : List ViewOp) : List Str := ops.foldl viewOp [first]

/-- `atoi` of a node's name, which is its port. -/
def nodeNumber (m : Str) : ℕ := m.foldl (fun n c => n * 10 + (c.toNat - '0'.toNat)) 0

section
variable {κ : Type*} [LinearOrder κ]

/-- The primary stays, or else the lowest numbered node of `p` that is in `c` follows. -/
def Documented (num : Str → κ) (primary : Str) (c p : List Str) (q : Str) : Prop :=
  (primary ∈ c → q = primary) ∧
    (primary ∉ c → (q ∈ p ∧ q ∈ c) ∧ ∀ m ∈ p, m ∈ c → num q ≤ num m)

/-- The member that has been in the view for the longest time has the lowest number. -/
def HeadLowest (num : Str → κ) (c : List Str) : Prop := ∀ h ∈ c.head?, ∀ m ∈ c, num h ≤ num m

/-- Every node that joins has a higher number than the members it meets. -/
def JoinsAscend (num : Str → κ) (first : Str) (ops : List ViewOp) : Prop :=
  ∀ before newM after, ops = before ++ .add newM :: after →
    ∀ m ∈ viewAfter first before, num m < num newM

/-- A view that the primary has left is the old one without it. -/
theorem removed_of_not_mem {primary : Str} {p : List Str} {op : ViewOp} (hp : primary ∈ p)
    (hgone : primary ∉ viewOp p op) : viewOp p op = p.filter (· ≠ primary) := by
  cases op with
  | add newM => exact absurd (List.mem_append_left _ hp) hgone
  | removeWo m =>
    have hm : primary = m := by
      by_contra hne
      exact hgone (List.mem_filter.mpr ⟨hp, decide_eq_true hne⟩)
    rw [viewOp, hm]

theorem find_eq_head {primary : Str} {p c : List Str} (hc : c = p.filter (· ≠ primary)) :
    p.find? (· ∈ c) = c.head? := by
  -- what is common to both views is the new view, in its order
  have hfilter : p.filter (· ∈ c) = c := by
    conv_rhs => rw [hc]
    apply List.filter_congr
    intro m hm
    rw [decide_eq_decide, hc, List.mem_filter, decide_eq_true_iff, and_iff_right hm]
  rw [← List.head?_filter, hfilter]

theorem setPrimary_follows {primary : Str} {p : List Str} (op : ViewOp) (hp : primary ∈ p)
    (hgone : primary ∉ viewOp p op) (hc : viewOp p op ≠ []) :
    setPrimary primary (viewOp p op) p = (viewOp p op).head? := by
  unfold setPrimary
  rw [if_neg hc, if_neg hgone, if_neg (List.ne_nil_of_mem hp),
    find_eq_head (removed_of_not_mem hp hgone)]

theorem documented_iff (num : Str → κ) {primary q : Str} {p : List Str} (op : ViewOp)
    (hp : primary ∈ p) (hgone : primary ∉ viewOp p op) (hq : (viewOp p op).head? = some q) :
    Documented num primary (viewOp p op) p q ↔ HeadLowest num (viewOp p op) := by
  have hmem : q ∈ viewOp p op := List.mem_of_mem_head? hq
  have hsub : ∀ m ∈ viewOp p op, m ∈ p := by
    intro m hm
    rw [removed_of_not_mem hp hgone] at hm
    exact List.mem_of_mem_filter hm
  constructor
  · intro h head hhead m hm
    obtain rfl : q = head := Option.some.inj (hq.symm.trans hhead)
    exact (h.2 hgone).2 m (hsub m hm) hm
  · intro h
    exact ⟨fun hstays => absurd hstays hgone,
      fun _ => ⟨⟨hsub q hmem, hmem⟩, fun m _ hm => h q hq m hm⟩⟩

theorem viewAfter_snoc (first : Str) (ops : List ViewOp) (op : ViewOp) :
    viewAfter first (ops ++ [op]) = viewOp (viewAfter first ops) op := by
  rw [viewAfter, List.foldl_append]
  rfl

theorem joinsAscend_of_snoc {num : Str → κ} {first : Str} {ops : List ViewOp} {op : ViewOp}
    (h : JoinsAscend num first (ops ++ [op])) : JoinsAscend num first ops := by
  rintro before newM after rfl m hm
  exact h before newM (after ++ [op]) (by rw [List.append_assoc, List.cons_append]) m hm

/-- Members leave the order as it is, and who joins goes to its end. -/
theorem viewAfter_pairwise {num : Str → κ} {first : Str} {ops : List ViewOp}
    (h : JoinsAscend num first ops) :
    (viewAfter first ops).Pairwise fun x y => num x < num y := by
  induction ops using List.reverseRecOn with
  | nil => exact List.pairwise_singleton _ _
  | append_singleton ops op ih =>
    have hops := ih (joinsAscend_of_snoc h)
    rw [viewAfter_snoc]
    cases op with
    | add newM =>
      refine List.pairwise_append.mpr ⟨hops, List.pairwise_singleton _ _, ?_⟩
      intro m hm x hx
      rw [List.mem_singleton.mp hx]
      exact h ops newM [] rfl m hm
    | removeWo m => exact hops.filter _

theorem headLowest_of_pairwise
    {num : Str → κ} {c : List Str} (h : c.Pairwise fun x y => num x < num y) :
    HeadLowest num c := by
  intro head hhead m hm
  cases c with
  | nil => cases hm
  | cons x c =>
    obtain rfl : x = head := Option.some.inj hhead
    rcases List.mem_cons.mp hm with rfl | hm
    · exact le_refl _
    · exact ((List.pairwise_cons.mp h).1 m hm).le

/-- `set_primary` for a view and the one before it does not fail an assertion, and chooses
the documented node exactly if the primary stays or the oldest member of the new view has
the lowest number. This is so if nodes join in the order of their numbers. -/
theorem set_primary_documented (num : Str → κ) (first : Str) (ops : List ViewOp) (op : ViewOp)
    (primary : Str)
    (p c : List Str) (hp : p = viewAfter first ops) (hc : c = viewAfter first (ops ++ [op]))
    (hprimary : primary ∈ p) (hcommon : ∃ m ∈ p, m ∈ c) :
    ∃ q, setPrimary primary c p = some q ∧
      (Documented num primary c p q ↔ primary ∈ c ∨ HeadLowest num c) ∧
      (JoinsAscend num first (ops ++ [op]) → Documented num primary c p q) := by
  obtain ⟨m,_,hm⟩ := hcommon
  have hlowest : JoinsAscend num first (ops ++ [op]) → HeadLowest num c := by
    intro h
    rw [hc]
    exact headLowest_of_pairwise (viewAfter_pairwise h)
  rw [viewAfter_snoc, ← hp] at hc
  by_cases hstays : primary ∈ c
  · have hdoc : Documented num primary c p primary :=
      ⟨fun _ => rfl, fun hgone => absurd hstays hgone⟩
    exact ⟨primary, setPrimary_stays hstays, iff_of_true hdoc (.inl hstays), fun _ => hdoc⟩
  · have hset := setPrimary_follows op hprimary (hc ▸ hstays) (hc ▸ List.ne_nil_of_mem hm)
    rw [← hc] at hset
    obtain ⟨q,hq⟩ := Option.isSome_iff_exists.mp (List.isSome_head?.mpr (List.ne_nil_of_mem hm))
    have hiff := documented_iff num op hprimary (hc ▸ hstays) (hc ▸ hq)
    rw [← hc] at hiff
    exact ⟨q, hset.trans hq, by rw [hiff, or_iff_right hstays], fun h => hiff.mpr (hlowest h)⟩

end

/-- Nodes 3, 5 and 9 have joined in this order, and 3 leaves. -/
theorem set_primary_documented_three :
    ∃ q, setPrimary ['3'] [['5'], ['9']] [['3'], ['5'], ['9']] = some q ∧
      Documented nodeNumber ['3'] [['5'], ['9']] [['3'], ['5'], ['9']] q := by
  obtain ⟨q,hq,hiff,_⟩ := set_primary_documented nodeNumber ['3'] [.add ['5'], .add ['9']]
    (.removeWo ['3']) ['3']
    [['3'], ['5'], ['9']] [['5'], ['9']] (by decide) (by decide) (by decide) (by decide)
  have hlowest : HeadLowest nodeNumber [['5'], ['9']] := by
    intro h hh
    obtain rfl : ['5'] = h := Option.some.inj hh
    decide
  exact ⟨q, hq, hiff.mpr (.inr hlowest)⟩

/-- Nodes 9, 5 and 3 have joined in this order, and 9 leaves: 5 becomes the primary. Or 3, 5
and 9 have joined, 3 leaves and comes back, and then 5 leaves: 9 becomes the primary. -/
theorem set_primary_not_lowest :
    (∃ p c, p = viewAfter ['9'] [.add ['5'], .add ['3']] ∧
      c = viewAfter ['9'] [.add ['5'], .add ['3'], .removeWo ['9']] ∧
      setPrimary ['9'] c p = some ['5'] ∧
      ¬ Documented nodeNumber ['9'] c p ['5']) ∧
    ∃ p c, p = viewAfter ['3'] [.add ['5'], .add ['9'], .removeWo ['3'], .add ['3']] ∧
      c = viewAfter ['3'] [.add ['5'], .add ['9'], .removeWo ['3'], .add ['3'], .removeWo ['5']] ∧
      setPrimary ['5'] c p = some ['9'] ∧ ¬ Documented nodeNumber ['5'] c p ['9'] := by
  refine ⟨⟨_, _, rfl, rfl, by decide, ?_⟩, _, _, rfl, rfl, by decide, ?_⟩
  · exact fun h => absurd ((h.2 (by decide)).2 ['3'] (by decide) (by decide)) (by decide)
  · exact fun h => absurd ((h.2 (by decide)).2 ['3'] (by decide) (by decide)) (by decide)

end Yfs.Rsm
