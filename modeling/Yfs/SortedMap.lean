import Mathlib.Data.List.Pairwise
import Mathlib.Data.Prod.Lex
import Mathlib.Order.Basic
import Mathlib.Data.List.Lex
import Mathlib.Data.Bool.Basic
import Mathlib.Tactic.SplitIfs

namespace Yfs
namespace SortedMap

variable {K V : Type} [LinearOrder K]

def insertEntry (a : K) (b : V) : List (K × V) → List (K × V)
  | [] => [(a, b)]
  | (k, v) :: l =>
    if a < k then (a, b) :: (k, v) :: l
    else if k < a then (k, v) :: insertEntry a b l
    else (k, b) :: l

theorem mem_insertEntry (a : K) (b : V) (l : List (K × V)) (x : K × V) (h : x ∈ insertEntry a b l) :
    x = (a, b) ∨ x ∈ l := by
  induction l with
  | nil => exact .inl (List.mem_singleton.mp h)
  | cons y l ih =>
    unfold insertEntry at h
    split_ifs at h with hlt hgt
    · exact List.mem_cons.mp h
    · rcases List.mem_cons.mp h with hx | hx
      · exact .inr (List.mem_cons.mpr (.inl hx))
      · exact (ih hx).imp id (List.mem_cons_of_mem y)
    · have hy : y.1 = a := le_antisymm (not_lt.mp hlt) (not_lt.mp hgt)
      rcases List.mem_cons.mp h with hx | hx
      · exact .inl (hy ▸ hx)
      · exact .inr (List.mem_cons_of_mem y hx)

theorem insertEntry_pairwise (a : K) (b : V) (l : List (K × V))
    (h : l.Pairwise fun x y => x.1 < y.1) : (insertEntry a b l).Pairwise fun x y => x.1 < y.1 := by
  induction l with
  | nil => exact List.pairwise_singleton _ _
  | cons y l ih =>
    obtain ⟨hy,hl⟩ := List.pairwise_cons.mp h
    unfold insertEntry
    split_ifs with hlt hgt
    · apply List.pairwise_cons.mpr ⟨?_, h⟩
      intro x hx
      rcases List.mem_cons.mp hx with rfl | hx
      · exact hlt
      · exact hlt.trans (hy x hx)
    · apply List.pairwise_cons.mpr ⟨?_, ih hl⟩
      intro x hx
      rcases mem_insertEntry a b l x hx with rfl | hx
      · exact hgt
      · exact hy x hx
    · exact List.pairwise_cons.mpr ⟨hy, hl⟩

theorem insertEntry_of_lt (a : K) (b : V) (l : List (K × V)) (h : ∀ x ∈ l, x.1 < a) :
    insertEntry a b l = l ++ [(a, b)] := by
  induction l with
  | nil => rfl
  | cons y l ih =>
    have hy : y.1 < a := h y List.mem_cons_self
    have hl := ih fun x hx => h x (List.mem_cons_of_mem y hx)
    rw [insertEntry, if_neg hy.asymm, if_pos hy, hl, List.cons_append]

def lookupEntry (a : K) : List (K × V) → Option V
  | [] => none
  | (k, v) :: l => if a < k then none else if k < a then lookupEntry a l else some v

theorem mem_of_lookupEntry (a : K) (l : List (K × V)) (v : V) (h : lookupEntry a l = some v) :
    (a, v) ∈ l := by
  induction l with
  | nil => exact nomatch h
  | cons y l ih =>
    unfold lookupEntry at h
    split_ifs at h with hlt hgt
    · exact List.mem_cons_of_mem y (ih h)
    · have hy : a = y.1 := le_antisymm (not_lt.mp hgt) (not_lt.mp hlt)
      obtain rfl := Option.some.inj h
      exact hy ▸ List.mem_cons_self

theorem lookupEntry_insertEntry (a b : K) (v : V) (l : List (K × V)) :
    lookupEntry b (insertEntry a v l) = if b = a then some v else lookupEntry b l := by
  induction l with
  | nil =>
    simp only [insertEntry, lookupEntry]
    grind
  | cons y l ih =>
    simp only [insertEntry]
    by_cases hlt : a < y.1
    · simp only [if_pos hlt, lookupEntry]
      grind
    · by_cases hgt : y.1 < a
      · simp only [if_neg hlt, if_pos hgt, lookupEntry, ih]
        grind
      · simp only [if_neg hlt, if_neg hgt, lookupEntry]
        grind

theorem countP_insertEntry (p : V → Bool) (a : K) (v : V) (l : List (K × V)) :
    (insertEntry a v l).countP (fun e => p e.2) + ((lookupEntry a l).elim 0 fun u => (p u).toNat) =
      l.countP (fun e => p e.2) + (p v).toNat := by
  induction l with
  | nil => cases hp : p v <;> simp [insertEntry, lookupEntry, hp]
  | cons y l ih =>
    unfold insertEntry lookupEntry
    split_ifs with hlt hgt
    · cases hp : p v <;> simp [hp]
    · simp only [List.countP_cons]
      omega
    · cases hp : p v <;> cases hq : p y.2 <;> simp [hp, hq]

end SortedMap

@[ext]
structure SortedMap (K V : Type) [LinearOrder K] where
  entries : List (K × V)
  sorted : entries.Pairwise fun x y => x.1 < y.1

namespace SortedMap

variable {K V : Type} [LinearOrder K]

def empty : SortedMap K V := ⟨[], List.Pairwise.nil⟩

/-- The assignment `d[a] = b`. -/
def insert (d : SortedMap K V) (e : K × V) : SortedMap K V :=
  ⟨insertEntry e.1 e.2 d.entries, insertEntry_pairwise e.1 e.2 d.entries d.sorted⟩

def lookup (d : SortedMap K V) (a : K) : Option V := lookupEntry a d.entries

def ofEntries (l : List (K × V)) : SortedMap K V := l.foldl insert empty

theorem foldl_insert_entries (l : List (K × V)) (d : SortedMap K V)
    (h : (d.entries ++ l).Pairwise fun x y => x.1 < y.1) :
    (l.foldl insert d).entries = d.entries ++ l := by
  induction l generalizing d with
  | nil => exact (List.append_nil _).symm
  | cons e l ih =>
    have hlt : ∀ x ∈ d.entries, x.1 < e.1 := by
      intro x hx
      exact (List.pairwise_append.mp h).2.2 x hx e List.mem_cons_self
    have hins : (d.insert e).entries = d.entries ++ [e] := insertEntry_of_lt e.1 e.2 d.entries hlt
    have happ : d.entries ++ e :: l = (d.insert e).entries ++ l := by
      rw [hins, List.append_assoc, List.singleton_append]
    rw [happ] at h ⊢
    exact ih (d.insert e) h

theorem ofEntries_entries (d : SortedMap K V) : ofEntries d.entries = d := by
  apply SortedMap.ext
  exact foldl_insert_entries d.entries empty d.sorted

/-- Maps are compared entry by entry, an entry by its key first. -/
instance [LinearOrder V] : LinearOrder (SortedMap K V) :=
  LinearOrder.lift' (fun d => d.entries.map (toLex : K × V → K ×ₗ V)) fun _ _ h =>
    SortedMap.ext (List.map_injective_iff.mpr toLex.injective h)

end SortedMap
end Yfs
