import Yfs.Directory

namespace Yfs.Dir
open Text

/-- The names and inums in use: no name is part of another one or of a printed inum. -/
structure Names (N : Str → Prop) (K : Inum → Prop) : Prop where
  ok : ∀ n, N n → NameOk n
  apart : ∀ n m, N n → N m → n <:+: m → n = m
  inum : ∀ n k, N n → K k → ¬ n <:+: filename k

/-- The entries of a directory with such names, each name once. -/
structure Entries (N : Str → Prop) (K : Inum → Prop) (es : List Entry) : Prop where
  names : ∀ x ∈ es, N x.name
  inums : ∀ x ∈ es, K x.inum
  nodup : (es.map Entry.name).Nodup

section
variable {N : Str → Prop} {K : Inum → Prop} {es : List Entry}

theorem Entries.split (hes : Entries N K es) (w : Str) :
    w ∉ es.map Entry.name ∨ ∃ l x r, es = l ++ x :: r ∧ x.name = w ∧ w ∉ l.map Entry.name ∧
      es.filter (fun y => y.name ≠ w) = l ++ r := by
  by_cases hw : w ∈ es.map Entry.name
  · right
    obtain ⟨x,hx,rfl⟩ := List.mem_map.mp hw
    obtain ⟨l,r,rfl⟩ := List.append_of_mem hx
    have hnodup := hes.nodup
    rw [List.map_append, List.map_cons, List.perm_middle.nodup_iff, List.nodup_cons,
      List.mem_append, not_or] at hnodup
    obtain ⟨⟨hl,hr⟩,-⟩ := hnodup
    have hkeep (m : List Entry) (hm : x.name ∉ m.map Entry.name) :
        m.filter (fun y => y.name ≠ x.name) = m := by
      rw [List.filter_eq_self]
      intro y hy
      simpa using fun he => hm (List.mem_map.mpr ⟨y,hy,he⟩)
    refine ⟨l, x, r, rfl, rfl, hl, ?_⟩
    rw [List.filter_append, List.filter_cons_of_neg (by simp), hkeep l hl, hkeep r hr]
  · exact .inl hw

theorem Entries.filter (hes : Entries N K es) (p : Entry → Bool) : Entries N K (es.filter p) where
  names x hx := hes.names x (List.mem_of_mem_filter hx)
  inums x hx := hes.inums x (List.mem_of_mem_filter hx)
  nodup := hes.nodup.sublist (List.filter_sublist.map _)

theorem Entries.append (hes : Entries N K es) {x : Entry} (hx : N x.name) (hk : K x.inum)
    (hno : x.name ∉ es.map Entry.name) : Entries N K (es ++ [x]) where
  names := by
    intro y hy
    rcases List.mem_append.mp hy with hy | hy
    · exact hes.names y hy
    · exact List.mem_singleton.mp hy ▸ hx
  inums := by
    intro y hy
    rcases List.mem_append.mp hy with hy | hy
    · exact hes.inums y hy
    · exact List.mem_singleton.mp hy ▸ hk
  nodup := by
    rw [List.map_append, List.nodup_append]
    refine ⟨hes.nodup, List.pairwise_singleton _ _, fun n hn m hm hnm => ?_⟩
    obtain rfl := List.mem_singleton.mp hm
    exact hno (hnm ▸ hn)

end

/-- Where `w;` starts in an entry, the entry's name ends with `w`. -/
theorem starts_in_text {w rest : Str} {x : Entry} {j : ℕ} (hw : NameOk w) (hx : NameOk x.name)
    (hj : j < x.text.length) (h : w ++ [';'] <+: (x.text ++ rest).drop j) :
    ∃ u, x.name = u ++ w ∧ j = (filename x.inum).length + 1 + u.length := by
  obtain ⟨t,ht⟩ := h
  rw [List.append_assoc, List.singleton_append] at ht
  have hlen : x.text.length = (filename x.inum).length + 1 + x.name.length + 1 := by
    simp [Entry.text]
    omega
  have htext : x.text ++ rest = filename x.inum ++ ':' :: (x.name ++ ';' :: rest) := by
    simp [Entry.text]
  rw [htext] at ht
  by_cases hcolon : j ≤ (filename x.inum).length
  · -- a colon comes first
    rw [List.drop_append_of_le_length hcolon] at ht
    have hdigits : ';' ∉ (filename x.inum).drop j :=
      fun hm => (filename_nameOk x.inum).2 (List.mem_of_mem_drop hm)
    obtain ⟨-,hsep,-⟩ := append_cons_inj hw.1 hdigits ht
    exact absurd hsep (by decide)
  · obtain ⟨m,hm⟩ : ∃ m, j = (filename x.inum).length + 1 + m :=
      ⟨j - ((filename x.inum).length + 1), by omega⟩
    have hdrop : (filename x.inum ++ ':' :: (x.name ++ ';' :: rest)).drop j = x.name.drop m ++
        ';' :: rest := by
      rw [hm, ← List.drop_drop, ← List.drop_drop, List.drop_left, List.drop_succ_cons,
        List.drop_zero, List.drop_append_of_le_length (by omega)]
    rw [hdrop] at ht
    obtain ⟨hname,-,-⟩ := append_cons_inj hw.2 (fun hm' => hx.2 (List.mem_of_mem_drop hm')) ht
    refine ⟨x.name.take m, ?_, ?_⟩
    · rw [hname, List.take_append_drop]
    · rw [List.length_take]
      omega

/-- The search for `w;` passes over an entry whose name does not end with `w`. -/
theorem find_render_skip {w : Str} {x : Entry} {es : List Entry} (hw : NameOk w)
    (hx : NameOk x.name) (hend : ¬ w <:+ x.name) :
    find (w ++ [';']) (render (x :: es)) =
      (find (w ++ [';']) (render es)).map (· + x.text.length) := by
  have hrender : render (x :: es) = x.text ++ render es := rfl
  rw [hrender]
  refine find_skip _ _ _ fun j hj h => ?_
  obtain ⟨u,hu,-⟩ := starts_in_text hw hx hj h
  exact hend ⟨u,hu.symm⟩

theorem find_render_hit {w u : Str} {x : Entry} {es : List Entry} (hw : NameOk w)
    (hx : NameOk x.name) (hu : x.name = u ++ w) :
    find (w ++ [';']) (render (x :: es)) = some (filename x.inum ++ ':' :: u).length := by
  have hsplit : render (x :: es) = (filename x.inum ++ ':' :: u) ++ (w ++ [';'] ++ render es) := by
    simp [render, Entry.text, hu]
  rw [hsplit, find_skip, find_of_prefix _ _ (List.prefix_append _ _), Option.map_some, Nat.zero_add]
  intro j hj h
  have hrender : render (x :: es) = x.text ++ render es := rfl
  have hlt : j < x.text.length := by
    simp [Entry.text, hu] at hj ⊢
    omega
  rw [← hsplit, hrender] at h
  obtain ⟨v,hv,hjv⟩ := starts_in_text hw hx hlt h
  have huv : v = u := List.append_cancel_right (hv.symm.trans hu)
  rw [huv] at hjv
  simp at hj
  omega

theorem find_suffix_none {w : Str} {es : List Entry} (hw : NameOk w)
    (hes : ∀ x ∈ es, NameOk x.name ∧ ¬ w <:+ x.name) : find (w ++ [';']) (render es) = none := by
  induction es with
  | nil => simp [render, find]
  | cons x es ih =>
    obtain ⟨⟨hx,hend⟩,hrest⟩ := List.forall_mem_cons.mp hes
    rw [find_render_skip hw hx hend, ih hrest]
    rfl

/-- The first match is at the end of the first name that ends with `w`. -/
theorem find_suffix {w u : Str} {l r : List Entry} {x : Entry} (hw : NameOk w)
    (hl : ∀ y ∈ l, NameOk y.name ∧ ¬ w <:+ y.name) (hx : NameOk x.name) (hu : x.name = u ++ w) :
    find (w ++ [';']) (render (l ++ x :: r)) =
      some ((render l).length + (filename x.inum ++ ':' :: u).length) := by
  induction l with
  | nil =>
    rw [List.nil_append, find_render_hit hw hx hu]
    simp [render]
  | cons y l ih =>
    obtain ⟨⟨hy,hend⟩,hrest⟩ := List.forall_mem_cons.mp hl
    have hlen : (render (y :: l)).length = y.text.length + (render l).length := List.length_append
    rw [List.cons_append, find_render_skip hw hy hend, ih hrest, Option.map_some, hlen]
    congr 1
    omega

theorem indexerFrom_plain (a b c : Str) (hb : ';' ∉ b) (n : ℕ) (hn : n ≤ b.length) :
    indexerFrom (a ++ (b ++ c)) (a.length + n) = indexerFrom (a ++ (b ++ c)) a.length := by
  induction n with
  | zero => rfl
  | succ n ih =>
    have hget : (a ++ (b ++ c))[a.length + n]? = b[n]? := by
      rw [List.getElem?_append_right (by omega), Nat.add_sub_cancel_left,
        List.getElem?_append_left (by omega)]
    have hne : b[n]? ≠ some ';' := fun h => hb (List.mem_of_getElem? h)
    rw [← Nat.add_assoc, indexerFrom, hget, if_neg hne, ih (by omega)]

/-- The loop of `lookup` goes back to the end of the entry before. -/
theorem indexerFrom_render (l : List Entry) (b c : Str) (hb : ';' ∉ b) :
    indexerFrom (render l ++ (b ++ c)) ((render l).length + b.length) = (render l).length := by
  rw [indexerFrom_plain _ b c hb b.length le_rfl]
  rcases List.eq_nil_or_concat l with rfl | ⟨l,x,rfl⟩
  · rfl
  · rw [render_concat, List.length_append, List.length_singleton, indexerFrom,
      List.getElem?_append_left (by simp), List.getElem?_concat_length, if_pos rfl]

theorem indexerFrom_entry (l r : List Entry) (x : Entry) {u w : Str} (hx : NameOk x.name)
    (hu : x.name = u ++ w) :
    indexerFrom (render (l ++ x :: r)) ((render l).length + (filename x.inum ++ ':' :: u).length) =
      (render l).length := by
  have hplain : ';' ∉ filename x.inum ++ ':' :: u := by
    rw [List.mem_append, List.mem_cons, not_or, not_or]
    exact ⟨(filename_nameOk x.inum).2,by decide,fun h => hx.2 (hu ▸ List.mem_append_left _ h)⟩
  rw [render_middle l r x hu, indexerFrom_render l _ _ hplain]

/-- `lookup` answers with the first entry whose name ends with the one it looks for. -/
theorem lookupInum_suffix {w u : Str} {l r : List Entry} {x : Entry} (hw : NameOk w)
    (hl : ∀ y ∈ l, NameOk y.name ∧ ¬ w <:+ y.name) (hx : NameOk x.name) (hu : x.name = u ++ w) :
    lookupInum (render (l ++ x :: r)) w = some (some x.inum) := by
  rw [lookupInum, find_suffix hw hl hx hu]
  simp only [indexerFrom_entry l r x hx hu]
  refine congrArg (Option.map some) (?_ : _ = some x.inum)
  split_ifs with hzero hfirst
  · -- behind another entry: up to the match
    rw [Nat.add_sub_cancel_left, render_middle l r x hu, List.drop_left, List.take_left]
    exact n2i_filename x.inum (':' :: u) rfl
  · simp at hfirst
  · -- in the first entry: one character less
    have hnil : render l = [] := List.length_eq_zero_iff.mp (not_not.mp hzero)
    have hlen : (filename x.inum ++ ':' :: u).length - 1 = (filename x.inum).length + u.length := by
      simp
    rw [render_middle l r x hu, hnil, List.nil_append, List.length_nil, Nat.zero_add, hlen,
      List.append_assoc, List.take_length_add_append]
    refine n2i_filename x.inum _ ?_
    cases u with
    | nil => rfl
    | cons c u => rfl

theorem lookupInum_eq_none_iff (buffer n : Str) :
    lookupInum buffer n = some none ↔ find (n ++ [';']) buffer = none := by
  unfold lookupInum
  cases find (n ++ [';']) buffer with
  | none => simp
  | some start => simp

/-- A name occurs in the text of a directory where it is part of a name or of the digits of
an inum. -/
theorem infix_render_iff {es : List Entry} {n : Str} (hn : n ≠ [] ∧ NameOk n) :
    n <:+: render es ↔ ∃ y ∈ es, n <:+: filename y.inum ∨ n <:+: y.name := by
  constructor
  · intro h
    induction es with
    | nil => exact absurd (List.infix_nil.mp h) hn.1
    | cons x es ih =>
      have htext : render (x :: es) = filename x.inum ++ ':' :: (x.name ++ ';' :: render es) := by
        simp [render, Entry.text]
      rw [htext] at h
      rcases infix_of_append_cons hn.2.1 h with h | h
      · exact ⟨x,List.mem_cons_self,.inl h⟩
      · rcases infix_of_append_cons hn.2.2 h with h | h
        · exact ⟨x,List.mem_cons_self,.inr h⟩
        · obtain ⟨y,hy,hin⟩ := ih h
          exact ⟨y,List.mem_cons_of_mem _ hy,hin⟩
  · rintro ⟨y,hy,h | h⟩
    · obtain ⟨l,r,rfl⟩ := List.append_of_mem hy
      refine h.trans ⟨render l, ':' :: (y.name ++ ';' :: render r), ?_⟩
      simp [render, Entry.text]
    · exact h.trans (name_infix_render es y hy)

/-- The first place where the digits of the inum of `name` occur is its entry. -/
def InumHit (buffer name : Str) : Prop :=
  ∀ i ∈ (lookupInum buffer name).join,
    find (filename i) buffer = (find (name ++ [';']) buffer).map (indexerFrom buffer)

instance (buffer name : Str) : Decidable (InumHit buffer name) :=
  Option.decidableForallMem (lookupInum buffer name).join

section
variable {N : Str → Prop} {K : Inum → Prop} (hN : Names N K) {es : List Entry}
include hN

/-- No other name ends with a name in use. -/
theorem Names.ends_apart {w : Str} {es : List Entry} (hw : N w) (hes : ∀ x ∈ es, N x.name)
    (hno : w ∉ es.map Entry.name) : ∀ x ∈ es, NameOk x.name ∧ ¬ w <:+ x.name := by
  intro x hx
  refine ⟨hN.ok _ (hes x hx),fun hend => hno ?_⟩
  rw [hN.apart w _ hw (hes x hx) hend.isInfix]
  exact List.mem_map_of_mem hx

theorem find_entry {l r : List Entry} {x : Entry} (hl : ∀ y ∈ l, N y.name) (hx : N x.name)
    (hno : x.name ∉ l.map Entry.name) :
    find (x.name ++ [';']) (render (l ++ x :: r)) =
      some ((render l).length + (filename x.inum ++ [':']).length) :=
  find_suffix (hN.ok _ hx) (hN.ends_apart hx hl hno) (hN.ok _ hx) (List.nil_append _).symm

theorem find_name_iff {w : Str} (hw : N w) (hne : w ≠ []) (hes : Entries N K es) :
    find w (render es) ≠ none ↔ w ∈ es.map Entry.name := by
  rw [Ne, find_eq_none_iff, not_not, infix_render_iff ⟨hne,hN.ok w hw⟩]
  constructor
  · rintro ⟨x,hx,h | h⟩
    · exact absurd h (hN.inum w _ hw (hes.inums x hx))
    · rw [hN.apart w _ hw (hes.names x hx) h]
      exact List.mem_map_of_mem hx
  · intro h
    obtain ⟨x,hx,rfl⟩ := List.mem_map.mp h
    exact ⟨x,hx,.inr List.infix_rfl⟩

theorem lookupInum_none {w : Str} (hw : N w) (hes : ∀ x ∈ es, N x.name)
    (hno : w ∉ es.map Entry.name) :
    lookupInum (render es) w = some none := by
  rw [lookupInum, find_suffix_none (hN.ok w hw) (hN.ends_apart hw hes hno)]

theorem lookupInum_entry {l r : List Entry} {x : Entry} (hl : ∀ y ∈ l, N y.name) (hx : N x.name)
    (hno : x.name ∉ l.map Entry.name) :
    lookupInum (render (l ++ x :: r)) x.name = some (some x.inum) :=
  lookupInum_suffix (hN.ok _ hx) (hN.ends_apart hx hl hno) (hN.ok _ hx) (List.nil_append _).symm

theorem unlinkRest_entry {l r : List Entry} {x : Entry} (hl : ∀ y ∈ l, N y.name) (hx : N x.name)
    (hno : x.name ∉ l.map Entry.name) (hhit : InumHit (render (l ++ x :: r)) x.name) :
    unlinkRest (render (l ++ x :: r)) x.name x.inum = some (render (l ++ r)) := by
  have hname := find_entry hN (r := r) hl hx hno
  have hback := indexerFrom_entry l r x (hN.ok _ hx) (List.nil_append x.name).symm
  have hpos : (filename x.inum ++ [':']).length = (filename x.inum).length + 1 := by simp
  refine unlinkRest_of_hit l r x x.inum (hN.ok _ hx) ?_ (hname.trans (by rw [hpos, Nat.add_assoc]))
  have hfound : (lookupInum (render (l ++ x :: r)) x.name).join = some x.inum :=
    Option.join_eq_some_iff.mpr (lookupInum_entry hN hl hx hno)
  rw [hhit x.inum hfound, hname, Option.map_some, hback]

end

end Yfs.Dir
