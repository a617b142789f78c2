import Mathlib.Data.List.Infix

namespace Yfs.Text

variable {α : Type*} [DecidableEq α]

/-- `find`: where the pattern starts first; `none` is `npos`. -/
def find (pat : List α) : List α → Option ℕ
  | [] => if pat = [] then some 0 else none
  | c :: s => if pat <+: c :: s then some 0 else (find pat s).map (· + 1)

/-- `substr(pos, len)`; `none` where it throws. -/
def substr (s : List α) (pos len : ℕ) : Option (List α) :=
  if pos ≤ s.length then some ((s.drop pos).take len) else none

theorem find_eq_none_iff (pat s : List α) : find pat s = none ↔ ¬ pat <:+: s := by
  induction s with
  | nil => simp [find]
  | cons c s ih =>
    rw [find, List.infix_cons_iff]
    by_cases h : pat <+: c :: s
    · simp [h]
    · simp [h, ih]

theorem find_singleton (c : α) (w r : List α) (h : c ∉ w) :
    find [c] (w ++ c :: r) = some w.length := by
  induction w with
  | nil => simp [find]
  | cons d w ih =>
    obtain ⟨hd,hw⟩ := not_or.mp (fun hh => h (List.mem_cons.mpr hh))
    have hne : ¬ [c] <+: d :: (w ++ c :: r) := by
      rw [List.singleton_prefix_cons_iff]
      exact hd
    rw [List.cons_append, find, if_neg hne, ih hw]
    rfl

theorem exists_last_of_mem {c : α} {s : List α} (h : c ∈ s) : ∃ a b, s = a ++ c :: b ∧ c ∉ b := by
  induction s with
  | nil => exact absurd h List.not_mem_nil
  | cons d s ih =>
    by_cases hs : c ∈ s
    · obtain ⟨a,b,rfl,hb⟩ := ih hs
      exact ⟨d :: a,b,rfl,hb⟩
    · obtain rfl := (List.mem_cons.mp h).resolve_right hs
      exact ⟨[],s,rfl,hs⟩

omit [DecidableEq α] in
theorem substr_middle (a b c : List α) : substr (a ++ (b ++ c)) a.length b.length = some b := by
  rw [substr, if_pos (by simp), List.drop_left, List.take_left]

omit [DecidableEq α] in
theorem substr_append (s t : List α) (pos len : ℕ) (h : pos + len ≤ s.length) :
    substr (s ++ t) pos len = substr s pos len := by
  have hpos : pos ≤ s.length := by omega
  rw [substr, substr, if_pos hpos, if_pos (by rw [List.length_append]; omega),
    List.drop_append_of_le_length hpos,
    List.take_append_of_le_length (by rw [List.length_drop]; omega)]

theorem find_of_prefix (pat s : List α) (h : pat <+: s) : find pat s = some 0 := by
  cases s with
  | nil => simp [find, List.prefix_nil.mp h]
  | cons c s => rw [find, if_pos h]

theorem find_le {pat s : List α} {i : ℕ} (h : find pat s = some i) : i ≤ s.length := by
  induction s generalizing i with
  | nil =>
    rw [find] at h
    split_ifs at h
    cases h
    exact le_rfl
  | cons c s ih =>
    rw [find] at h
    split_ifs at h
    · cases h
      exact Nat.zero_le _
    · obtain ⟨j,hj,rfl⟩ := Option.map_eq_some_iff.mp h
      exact Nat.succ_le_succ (ih hj)

theorem find_skip (pat a b : List α) (h : ∀ j < a.length, ¬ pat <+: (a ++ b).drop j) :
    find pat (a ++ b) = (find pat b).map (· + a.length) := by
  induction a with
  | nil => simp
  | cons c a ih =>
    have h0 : ¬ pat <+: c :: (a ++ b) := h 0 (Nat.succ_pos _)
    have hrest := ih fun j hj => h (j + 1) (Nat.succ_lt_succ hj)
    rw [List.cons_append, find, if_neg h0, hrest, Option.map_map]
    rfl

section
omit [DecidableEq α]

theorem append_cons_inj {w a t u : List α} {c d : α} (hw : d ∉ w) (ha : c ∉ a)
    (h : w ++ c :: t = a ++ d :: u) : w = a ∧ c = d ∧ t = u := by
  induction w generalizing a with
  | nil =>
    cases a with
    | nil => simpa using h
    | cons x a =>
      obtain ⟨rfl,-⟩ := List.cons.inj h
      exact absurd List.mem_cons_self ha
  | cons x w ih =>
    cases a with
    | nil =>
      obtain ⟨rfl,-⟩ := List.cons.inj h
      exact absurd List.mem_cons_self hw
    | cons y a =>
      obtain ⟨rfl,hrest⟩ := List.cons.inj h
      obtain ⟨rfl,hcd⟩ := ih (fun hm => hw (List.mem_cons_of_mem _ hm))
        (fun hm => ha (List.mem_cons_of_mem _ hm)) hrest
      exact ⟨rfl,hcd⟩

/-- A word without the separator ends before it. -/
theorem prefix_of_append_cons {w a b : List α} {c : α} (hc : c ∉ w) (h : w <+: a ++ c :: b) :
    w <+: a := by
  induction a generalizing w with
  | nil =>
    rcases List.prefix_cons_iff.mp h with rfl | ⟨t,rfl,-⟩
    · exact List.nil_prefix
    · exact absurd List.mem_cons_self hc
  | cons x a ih =>
    rcases List.prefix_cons_iff.mp h with rfl | ⟨t,rfl,ht⟩
    · exact List.nil_prefix
    · exact List.cons_prefix_cons.mpr ⟨rfl,ih (fun hm => hc (List.mem_cons_of_mem _ hm)) ht⟩

theorem infix_of_append_cons {w a b : List α} {c : α} (hc : c ∉ w) (h : w <:+: a ++ c :: b) :
    w <:+: a ∨ w <:+: b := by
  induction a with
  | nil =>
    rcases List.infix_cons_iff.mp h with h | h
    · exact .inl (prefix_of_append_cons (a := []) hc h).isInfix
    · exact .inr h
  | cons x a ih =>
    rcases List.infix_cons_iff.mp h with h | h
    · exact .inl (prefix_of_append_cons (a := x :: a) hc h).isInfix
    · exact (ih h).imp_left fun hw => hw.trans (List.suffix_cons x a).isInfix

end

end Yfs.Text
