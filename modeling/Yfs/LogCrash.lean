import Yfs.PaxosLog

namespace Yfs.Paxos
open Istream Dir

abbrev Commit := Unsigned × Line

def logged (commits : List Commit) : List Record := commits.map fun x => .done x.1 x.2

/-- The acceptor that has made these commits. -/
def afterCommits (me : Str) (commits : List Commit) : AccState :=
  (logged commits).foldl Record.apply (.fresh me)

/-- `logread` of the file finds some initial segment of the commits. -/
def Recovers (inst : ℕ) (me : Str) (commits : List Commit) (file : Str) : Prop :=
  ∃ j, logread inst file (.fresh me) = some (afterCommits me (commits.take j))

/-- The file ends with a record, with or without its newline. -/
def CleanCut (commits : List Commit) (file : Str) : Prop :=
  ∃ j, file = written (logged (commits.take j)) ∨ file ++ ['\n'] = written (logged (commits.take j))

/-- Commits as `commit_wo` makes them, of values that are not empty. -/
def Increasing (commits : List Commit) : Prop :=
  commits.Pairwise (fun x y => x.1 < y.1) ∧ ∀ x ∈ commits, x.2.1 ≠ []

instance (commits : List Commit) : Decidable (Increasing commits) := by
  unfold Increasing
  infer_instance

theorem prefix_append_cases {α : Type*} (p a b : List α) (h : p <+: a ++ b) :
    p <+: a ∨ ∃ q, p = a ++ q ∧ q <+: b := by
  rcases List.prefix_or_prefix_of_prefix h (List.prefix_append a b) with hp | ⟨q,rfl⟩
  · exact Or.inl hp
  · exact Or.inr ⟨q, rfl, (List.prefix_append_right_inj a).mp h⟩

/-- The beginnings of a record. -/
inductive Cut (x : Commit) : Str → Prop
  | keyword (p : Str) (hp : p <+: doneType) : Cut x p
  | number (ds : Str) (hds : ds <+: Nat.toDigits 10 x.1) : Cut x (doneType ++ ' ' :: ds)
  | value (w : Str) (hw : w <+: x.2.1) :
      Cut x (doneType ++ ' ' :: (Nat.toDigits 10 x.1 ++ ' ' :: w))

theorem text_done (x : Commit) : Record.text (.done x.1 x.2) =
    doneType ++ ' ' :: (Nat.toDigits 10 x.1 ++ ' ' :: (x.2.1 ++ ['\n'])) := rfl

/-- A record that is not complete is cut at its keyword, its number or its value. -/
theorem cut_of_prefix (x : Commit) (p : Str) (h : p <+: Record.text (.done x.1 x.2)) :
    p = Record.text (.done x.1 x.2) ∨ Cut x p := by
  rw [text_done] at h ⊢
  rcases prefix_append_cases p _ _ h with hp | ⟨q,rfl,hq⟩
  · exact Or.inr (.keyword p hp)
  rcases List.prefix_cons_iff.mp hq with rfl | ⟨ds,rfl,hds⟩
  · rw [List.append_nil]
    exact Or.inr (.keyword _ (List.prefix_refl _))
  rcases prefix_append_cases ds _ _ hds with hds | ⟨r,rfl,hr⟩
  · exact Or.inr (.number ds hds)
  rcases List.prefix_cons_iff.mp hr with rfl | ⟨w,rfl,hw⟩
  · rw [List.append_nil]
    exact Or.inr (.number _ (List.prefix_refl _))
  rcases List.prefix_concat_iff.mp hw with rfl | hw
  · exact Or.inl rfl
  · exact Or.inr (.value w hw)

theorem written_logged_cons (x : Commit) (commits : List Commit) :
    written (logged (x :: commits)) =
      Record.text (.done x.1 x.2) ++ written (logged commits) := by
  rw [written_eq, written_eq]
  rfl

/-- A file that is cut anywhere is the log of the first commits, and what there is of
the record after them. -/
theorem cut_written (commits : List Commit) (k : ℕ) :
    (∃ j, (written (logged commits)).take k = written (logged (commits.take j))) ∨
    ∃ j x tail, commits[j]? = some x ∧ Cut x tail ∧
      (written (logged commits)).take k = written (logged (commits.take j)) ++ tail := by
  induction commits generalizing k with
  | nil => exact Or.inl ⟨0, List.take_nil⟩
  | cons x commits ih =>
    rw [written_logged_cons, List.take_append]
    by_cases hk : k < (Record.text (.done x.1 x.2)).length
    · have hnone : (written (logged commits)).take (k - (Record.text (.done x.1 x.2)).length) =
          [] := by
        rw [Nat.sub_eq_zero_of_le (Nat.le_of_lt hk), List.take_zero]
      rw [hnone, List.append_nil]
      rcases cut_of_prefix x _ (List.take_prefix k _) with hp | hcut
      · have hlen := congrArg List.length hp
        rw [List.length_take] at hlen
        omega
      · exact Or.inr ⟨0, x, _, rfl, hcut, rfl⟩
    · rw [List.take_of_length_le (Nat.le_of_not_lt hk)]
      rcases ih (k - (Record.text (.done x.1 x.2)).length) with ⟨j,hj⟩ | ⟨j,y,tail,hy,hcut,hj⟩
      · refine Or.inl ⟨j + 1, ?_⟩
        rw [hj, List.take_succ_cons, written_logged_cons]
      · refine Or.inr ⟨j + 1, y, tail, hy, hcut, ?_⟩
        rw [hj, List.take_succ_cons, written_logged_cons, List.append_assoc]

section
variable (fuel : ℕ) (b t : Str) (i : ℕ) (pxs : AccState)

/-- A stream that has met its end gives a number as it was, and an empty line. -/
theorem fields_at_end (n : ℕ) (fail : Bool) : (⟨[], true, fail⟩ : Istream).unsigned n =
      (n, ⟨[], true, true⟩) ∧
    (⟨[], true, fail⟩ : Istream).get.getline [] = ([], ⟨[], true, true⟩) :=
  ⟨rfl, rfl⟩

theorem loop_failed (rest : Str) (eof : Bool) :
    Reader.loop (fuel + 1) ⟨⟨rest, eof, true⟩, t, i, pxs⟩ = some pxs := by
  simp [Reader.loop, Reader.token, word, skipws, good]

theorem token_end (w : Str) (hb : Blank b) (hw : IsName w) :
    (⟨ofText (b ++ w), t, i, pxs⟩ : Reader).token = ⟨⟨[], true, false⟩, w, i, pxs⟩ := by
  have hword := word_ofText b w [] t hb hw.1 hw.2 stops_nil
  rw [List.append_nil] at hword
  rw [Reader.token, hword]
  rfl

/-- Inside the keyword: the type is unknown. -/
theorem loop_cut_type (p : Str) (hb : Blank b) (hp : p <+: doneType) (hnil : p ≠ [])
    (hne : p ≠ doneType) : Reader.loop (fuel + 1) ⟨ofText (b ++ p), t, i, pxs⟩ = none := by
  have hname : IsName p := ⟨hnil, fun c hc => isName_doneType.2 c (hp.subset hc)⟩
  have hother : p ≠ propseenType ∧ p ≠ acceptedType := by
    constructor <;> rintro rfl
    · exact absurd hp (by decide)
    · exact absurd hp (by decide)
  rw [Reader.loop, token_end b t i pxs p hb hname, if_neg Bool.false_ne_true, Reader.body,
    if_neg hne, if_neg hother.1, if_neg hother.2]
  rfl

/-- After the keyword: the value of the instance before it is lost, or of any instance
if there is none. -/
theorem loop_cut_keyword (hb : Blank b) :
    Reader.loop (fuel + 2) ⟨ofText (b ++ doneType), t, i, pxs⟩ = some (pxs.learn i []) := by
  rw [loop_round (fuel + 1) (token_end b t i pxs doneType hb isName_doneType) rfl
    (body_done _ i pxs), (fields_at_end i false).1, (fields_at_end i true).2]
  exact loop_failed fuel doneType i _ [] true

/-- Inside the number, or in front of it: an empty value is read. -/
theorem loop_cut_number (ds : Str) (n : ℕ) (hb : Blank b) (hds : ds <+: Nat.toDigits 10 n) :
    ∃ m, Reader.loop (fuel + 2) ⟨ofText (b ++ (doneType ++ ' ' :: ds)), t, i, pxs⟩ =
      some (pxs.learn m []) := by
  have hdigit : ∀ c ∈ ds, c.isDigit = true := fun c hc =>
    Nat.isDigit_of_mem_toDigits (by decide) (by decide) (hds.subset hc)
  -- whatever the number, the stream has met its end
  obtain ⟨m,fail,hm⟩ : ∃ m fail, (ofText (' ' :: ds)).unsigned i = (m, ⟨[], true, fail⟩) := by
    cases ds with
    | nil => exact ⟨i, true, rfl⟩
    | cons c ds =>
      have hc := hdigit c List.mem_cons_self
      have hskip := skipws_ofText [' '] c ds blank_space (not_isSpace_of_isDigit c hc)
      have hsign : signOf (c :: ds) = (false, c :: ds) := signOf_of_isDigit c _ hc
      have hdrop : (c :: ds).dropWhile Char.isDigit = [] := List.dropWhile_eq_nil_iff.mpr hdigit
      rw [List.singleton_append] at hskip
      simp only [unsigned, hskip]
      simp only [ofText, hsign, hdrop, Bool.false_eq_true, if_false, List.isEmpty_nil]
      split
      · exact ⟨_, _, rfl⟩
      · split
        · exact ⟨_, _, rfl⟩
        · exact ⟨_, _, rfl⟩
  refine ⟨m, ?_⟩
  rw [loop_round (fuel + 1) (token_word b doneType ds t i pxs hb isName_doneType) rfl
    (body_done _ i pxs), hm, (fields_at_end m fail).2]
  exact loop_failed fuel doneType m _ [] true

/-- Inside the value: what there is of it is read. -/
theorem loop_cut_value (w : Str) (n : Unsigned) (hb : Blank b) (hw : '\n' ∉ w) :
    Reader.loop (fuel + 2)
      ⟨ofText (b ++ (doneType ++ ' ' :: (Nat.toDigits 10 n ++ ' ' :: w))), t, i, pxs⟩ =
        some (pxs.learn n w) := by
  rw [loop_round (fuel + 1) (token_word b doneType _ t i pxs hb isName_doneType) rfl
    (body_done _ i pxs), unsigned_field, get_ofText, getline_end w [] hw]
  -- the line has met the end of the input: the next read fails
  cases w with
  | nil => exact loop_failed fuel doneType n _ [] true
  | cons c w => rfl

end

theorem afterCommits_concat (me : Str) (commits : List Commit) (x : Commit) :
    afterCommits me (commits ++ [x]) = (afterCommits me commits).learn x.1 x.2 := by
  rw [afterCommits, logged, List.map_append, List.foldl_append]
  rfl

theorem committed_of_values (me : Str) (commits : List Commit) (i : ℕ) (v : Str)
    (h : (afterCommits me commits).values i = some v) : ∃ x ∈ commits, (x.1 : ℕ) = i ∧
    x.2.1 = v := by
  induction commits using List.reverseRecOn with
  | nil => cases h
  | append_singleton commits x ih =>
    rw [afterCommits_concat] at h
    by_cases hi : i = x.1
    · subst hi
      refine ⟨x, by simp, rfl, ?_⟩
      simpa [AccState.learn] using h
    · obtain ⟨y,hy,hval⟩ := ih (by simpa [AccState.learn, hi] using h)
      exact ⟨y, List.mem_append_left _ hy, hval⟩

theorem eq_of_instance_eq {commits : List Commit} (h : Increasing commits) {x y : Commit}
    (hx : x ∈ commits) (hy : y ∈ commits) (he : x.1 = y.1) : x = y := by
  have hnodup : (commits.map Prod.fst).Nodup :=
    List.pairwise_map.mpr (h.1.imp fun hlt => ne_of_lt hlt)
  exact List.inj_on_of_nodup_map hnodup hx hy he

/-- What is read from the log of the first commits and what there is of the next record. -/
theorem logread_cut (inst : ℕ) (me : Str) (commits : List Commit) (tail : Str) (hne : tail ≠ []) :
    ∃ b t fuel, Blank b ∧ logread inst (written (logged commits) ++ tail) (.fresh me) =
      Reader.loop (fuel + 2) ⟨ofText (b ++ tail), t, (logged commits).foldl Record.instAfter inst,
        afterCommits me commits⟩ := by
  obtain ⟨b,t,fuel,hb,hfuel,hread⟩ := logread_written_append (logged commits) tail inst (.fresh me)
  have hpos : 0 < fuel := (List.length_pos_of_ne_nil hne).trans_le hfuel
  obtain ⟨f,rfl⟩ := Nat.exists_eq_add_one_of_ne_zero hpos.ne'
  exact ⟨b, t, f, hb, hread⟩

theorem written_logged_concat (commits : List Commit) (x : Commit) :
    written (logged (commits ++ [x])) = written (logged commits) ++
      (doneType ++ ' ' :: (Nat.toDigits 10 x.1 ++ ' ' :: x.2.1)) ++ ['\n'] := by
  rw [written_eq, written_eq, logged, List.map_append, List.flatMap_append]
  simp [logged, text_done]

theorem recovers_of_cleanCut (inst : ℕ) (me : Str) (commits : List Commit) (file : Str)
    (h : CleanCut commits file) : Recovers inst me commits file := by
  obtain ⟨j,rfl | hj⟩ := h
  · exact ⟨j, logread_written _ _ _⟩
  · refine ⟨j, ?_⟩
    -- the last record has all of its value
    rcases List.eq_nil_or_concat' (commits.take j) with hnil | ⟨init,x,hinit⟩
    · rw [hnil] at hj
      exact absurd hj (List.append_ne_nil_of_right_ne_nil _ (List.cons_ne_nil _ _))
    · rw [hinit, written_logged_concat] at hj
      rw [hinit, List.append_cancel_right hj, afterCommits_concat]
      obtain ⟨b,t,fuel,hb,hread⟩ := logread_cut inst me init
        (doneType ++ ' ' :: (Nat.toDigits 10 x.1 ++ ' ' :: x.2.1)) (List.cons_ne_nil _ _)
      rw [hread, loop_cut_value fuel b t _ _ x.2.1 x.1 hb x.2.2]

/-- If something is known that is not one of the commits, no initial segment of them
has been recovered. -/
theorem not_recovers_of_values {inst : ℕ} {me : Str} {commits : List Commit} {file : Str}
    {a : AccState}
    {m : ℕ} {w : Str} (hread : logread inst file (.fresh me) = some a) (ha : a.values m = some w)
    (hnot : ∀ x ∈ commits, (x.1 : ℕ) = m → x.2.1 ≠ w) : ¬ Recovers inst me commits file := by
  rintro ⟨j,hj⟩
  cases Option.some.inj (hread.symm.trans hj)
  obtain ⟨x,hx,hm,hw⟩ := committed_of_values me _ m w ha
  exact hnot x (List.mem_of_mem_take hx) hm hw

theorem learn_values (pxs : AccState) (m : ℕ) (w : Str) : (pxs.learn m w).values m = some w :=
  Function.update_self ..

theorem cleanCut_of_recovers (inst : ℕ) (me : Str) (commits : List Commit) (k : ℕ)
    (hinc : Increasing commits)
    (h : Recovers inst me commits ((written (logged commits)).take k)) :
    CleanCut commits ((written (logged commits)).take k) := by
  rcases cut_written commits k with ⟨j,hj⟩ | ⟨j,x,tail,hx,hcut,hj⟩
  · exact ⟨j, Or.inl hj⟩
  have hmem : x ∈ commits := List.mem_of_getElem? hx
  -- no value is empty
  have hempty : ∀ m, ∀ y ∈ commits, (y.1 : ℕ) = m → y.2.1 ≠ [] := fun _ y hy _ => hinc.2 y hy
  by_cases hnil : tail = []
  · rw [hnil, List.append_nil] at hj
    exact ⟨j, Or.inl hj⟩
  obtain ⟨b,t,fuel,hb,hread⟩ := logread_cut inst me (commits.take j) tail hnil
  rw [← hj] at hread
  cases hcut with
  | keyword p hp =>
    by_cases hdone : tail = doneType
    · subst hdone
      rw [loop_cut_keyword fuel b t _ _ hb] at hread
      exact absurd h (not_recovers_of_values hread (learn_values _ _ _) (hempty _))
    · rw [loop_cut_type (fuel + 1) b t _ _ tail hb hp hnil hdone] at hread
      obtain ⟨l,hl⟩ := h
      cases hread.symm.trans hl
  | number ds hds =>
    obtain ⟨m,hm⟩ := loop_cut_number fuel b t _ (afterCommits me (commits.take j)) ds x.1 hb hds
    exact absurd h (not_recovers_of_values (hread.trans hm) (learn_values _ _ _) (hempty m))
  | value w hw =>
    have hline : '\n' ∉ w := fun hn => x.2.2 (hw.subset hn)
    rw [loop_cut_value fuel b t _ _ w x.1 hb hline] at hread
    by_cases hall : w = x.2.1
    · refine ⟨j + 1, Or.inr ?_⟩
      rw [List.take_add_one, hx, Option.toList_some, written_logged_concat, hj, hall]
    · refine absurd h (not_recovers_of_values hread (learn_values _ _ _) fun y hy hyx hyw =>
        hall ?_)
      rw [← hyw, eq_of_instance_eq hinc hy hmem (Fin.ext hyx)]

/-- Recovery from a crash in the middle of an append. A file that ends with a record,
with or without its newline, is read as the commits that it has, and no other file is,
when successive instances were committed with values that are not empty. -/
theorem crash_recovery (commits : List Commit) (k inst : ℕ) (me : Str) :
    (CleanCut commits ((written (logged commits)).take k) →
      ∃ j a, logread inst ((written (logged commits)).take k) (.fresh me) = some a ∧
        a = afterCommits me (commits.take j) ∧
        ∀ i v, a.values i = some v → ∃ x ∈ commits, (x.1 : ℕ) = i ∧ x.2.1 = v) ∧
    (Increasing commits → Recovers inst me commits ((written (logged commits)).take k) →
      CleanCut commits ((written (logged commits)).take k)) := by
  refine ⟨fun hcut => ?_, cleanCut_of_recovers inst me commits k⟩
  obtain ⟨j,hj⟩ := recovers_of_cleanCut inst me commits _ hcut
  refine ⟨j, _, hj, rfl, fun i v hv => ?_⟩
  obtain ⟨x,hx,hval⟩ := committed_of_values me _ i v hv
  exact ⟨x, List.mem_of_mem_take hx, hval⟩

/-- The views of `a`, and of `a` and `b`. -/
def twoViews : List Commit := [(1, ⟨['a', ' '], by decide⟩), (2, ⟨['a', ' ', 'b', ' '], by decide⟩)]

def twoViewsLog (k : ℕ) : Str := (written (logged twoViews)).take k

theorem crash_recovery_two_views :
    (∃ j a, logread 0 (twoViewsLog 21) (.fresh ['a']) = some a ∧
      a = afterCommits ['a'] (twoViews.take j) ∧
      ∀ i v, a.values i = some v → ∃ x ∈ twoViews, (x.1 : ℕ) = i ∧ x.2.1 = v) ∧
    CleanCut twoViews (twoViewsLog 21) := by
  have hcut : CleanCut twoViews (twoViewsLog 21) := ⟨2, Or.inr (by decide +kernel)⟩
  obtain ⟨hread,hclean⟩ := crash_recovery twoViews 21 0 ['a']
  obtain ⟨j,a,ha,haj,hval⟩ := hread hcut
  exact ⟨⟨j, a, ha, haj, hval⟩, hclean (by decide) ⟨j, haj ▸ ha⟩⟩

/-- The second append is cut inside its keyword, after it, and inside the value. The
first file cannot be read; from the second, view 1 is read as empty; from the third,
view 2 is read as that of `a` alone. -/
theorem crash_breaks_log :
    logread 0 (twoViewsLog 11) (.fresh ['a']) = none ∧
    (∃ a, logread 0 (twoViewsLog 14) (.fresh ['a']) = some a ∧ a.values 1 = some [] ∧
      ¬ Recovers 0 ['a'] twoViews (twoViewsLog 14)) ∧
    ∃ a, logread 0 (twoViewsLog 18) (.fresh ['a']) = some a ∧ a.instanceH = 2 ∧
      a.values 2 = some ['a'] ∧ ¬ Recovers 0 ['a'] twoViews (twoViewsLog 18) := by
  have hkeyword : twoViewsLog 11 = written (logged (twoViews.take 1)) ++ ['d'] := by decide +kernel
  have hnumber : twoViewsLog 14 = written (logged (twoViews.take 1)) ++ doneType := by
    decide +kernel
  have hvalue : twoViewsLog 18 = written (logged (twoViews.take 1)) ++
      (doneType ++ ' ' :: (Nat.toDigits 10 2 ++ ' ' :: ['a'])) := by decide +kernel
  refine ⟨?_, ?_, ?_⟩
  · obtain ⟨b,t,fuel,hb,hread⟩ := logread_cut 0 ['a'] (twoViews.take 1) ['d'] (by decide)
    rw [hkeyword, hread]
    exact loop_cut_type (fuel + 1) b t _ _ ['d'] hb (by decide) (by decide) (by decide)
  · obtain ⟨b,t,fuel,hb,hread⟩ := logread_cut 0 ['a'] (twoViews.take 1) doneType (by decide)
    rw [loop_cut_keyword fuel b t _ _ hb, ← hnumber] at hread
    exact ⟨_, hread, rfl, not_recovers_of_values (m := 1) (w := []) hread rfl (by decide)⟩
  · obtain ⟨b,t,fuel,hb,hread⟩ := logread_cut 0 ['a'] (twoViews.take 1)
      (doneType ++ ' ' :: (Nat.toDigits 10 2 ++ ' ' :: ['a'])) (by decide)
    rw [← hvalue] at hread
    have hlearn := hread.trans (loop_cut_value fuel b t _ _ ['a'] 2 hb (by decide))
    exact ⟨_, hlearn, rfl, rfl, not_recovers_of_values (m := 2) (w := ['a']) hlearn rfl (by decide)⟩

end Yfs.Paxos
