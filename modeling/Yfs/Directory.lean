import Mathlib.Algebra.Group.Nat.Defs
import Yfs.Text

/-! Directories are strings, `inum:name;` for every entry: how `yfs_client` and
`fuseserver_readdir` write and read them. A `char` is a `Char`. Positions are natural
numbers, so directories are taken to be shorter than 2^31. -/
namespace Yfs.Dir
open Text

abbrev Str := List Char

instance : LawfulBEq Str := List.instLawfulBEq

abbrev Inum := BitVec 64

def filename (inum : Inum) : Str := Nat.toDigits 10 inum.toNat

def isSpace (c : Char) : Bool := [9, 10, 11, 12, 13, 32].contains c.toNat

/-- A sign in front of a number, and the rest. -/
def signOf : Str → Bool × Str
  | '-' :: s => (true, s)
  | '+' :: s => (false, s)
  | s => (false, s)

/-- A sign and digits, up to the first other character. A number that is too large is read
as the largest one. -/
def readInum (s : Str) : Inum :=
  let signed := signOf s
  let value := Nat.ofDigitChars 10 (signed.2.takeWhile Char.isDigit) 0
  if value ≥ 2^64 then BitVec.allOnes 64
  else if signed.1 = true then -BitVec.ofNat 64 value
  else BitVec.ofNat 64 value

/-- `ist >> finum`; `none` where there is nothing behind the blanks, so that `finum` is
returned without a value. -/
def n2i (n : Str) : Option Inum :=
  if n.dropWhile isSpace = [] then none else some (readInum (n.dropWhile isSpace))

def isfile (inum : Inum) : Bool := inum &&& 0x80000000 != 0

/-- `rand()` returns an `int` that is not negative. -/
def generateInum (rand : BitVec 31) : Inum := 0 ||| rand.setWidth 64

def generateFileInum (rand : BitVec 31) : Inum := generateInum rand ||| 0x80000000

def generateDirInum (rand : BitVec 31) : Inum := generateInum rand &&& 0x7FFFFFFF

structure Entry where
  inum : Inum
  name : Str
  deriving DecidableEq

/-- `filename(inum)+":"+name+";"`. -/
def Entry.text (x : Entry) : Str := filename x.inum ++ (':' :: (x.name ++ [';']))

def render (es : List Entry) : Str := es.flatMap Entry.text

/-- The variables of the loop in `fuseserver_readdir`: `start_pos + 1`, `delim_pos`
once it is set, `file_inum`, and the entries that have been added. -/
structure Scan where
  start : ℕ
  delimPos : Option ℕ
  fileInum : Str
  added : List Entry

def Scan.step (buffer : Str) (s : Scan) (i : ℕ) (c : Char) : Option Scan :=
  if c = ':' then (substr buffer s.start (i - s.start)).map fun n =>
    { s with delimPos := some i, fileInum := n }
  else if c = ';' then s.delimPos.bind fun d => (substr buffer (d + 1) (i - d - 1)).bind fun n =>
    (n2i s.fileInum).map fun inum => { s with start := i + 1, added := s.added ++ [⟨inum, n⟩] }
  else some s

theorem Scan.step_cases {buffer : Str} {s t : Scan} {i : ℕ} {c : Char}
    (h : s.step buffer i c = some t) :
    (c = ':' ∧ ∃ n, substr buffer s.start (i - s.start) = some n ∧
      t = { s with delimPos := some i, fileInum := n }) ∨
    (c = ';' ∧ ∃ d n inum, s.delimPos = some d ∧ substr buffer (d + 1) (i - d - 1) = some n ∧
      n2i s.fileInum = some inum ∧
      t = { s with start := i + 1, added := s.added ++ [⟨inum, n⟩] }) ∨
    (c ≠ ':' ∧ c ≠ ';' ∧ t = s) := by
  unfold Scan.step at h
  split_ifs at h with hcolon hsemi
  · obtain ⟨n,hn,rfl⟩ := Option.map_eq_some_iff.mp h
    exact .inl ⟨hcolon,n,hn,rfl⟩
  · obtain ⟨d,hd,h⟩ := Option.bind_eq_some_iff.mp h
    obtain ⟨n,hn,h⟩ := Option.bind_eq_some_iff.mp h
    obtain ⟨inum,hinum,rfl⟩ := Option.map_eq_some_iff.mp h
    exact .inr (.inl ⟨hsemi,d,n,inum,hd,hn,hinum,rfl⟩)
  · cases h
    exact .inr (.inr ⟨hcolon,hsemi,rfl⟩)

def scanFrom (buffer : Str) : Scan → ℕ → Str → Option Scan
  | s, _, [] => some s
  | s, i, c :: cs => (s.step buffer i c).bind fun s' => scanFrom buffer s' (i + 1) cs

/-- The entries that `fuseserver_readdir` finds in a directory; `none` where it uses
`delim_pos` before it is set, or an inum that was read from blanks. -/
def fuseserverReaddir (buffer : Str) : Option (List Entry) :=
  (scanFrom buffer ⟨0, none, [], []⟩ 0 buffer).map Scan.added

/-- `indexer + 1` after the loop in `lookup`, from `indexer + 1` before it. -/
def indexerFrom (buffer : Str) : ℕ → ℕ
  | 0 => 0
  | j + 1 => if buffer[j]? = some ';' then j + 1 else indexerFrom buffer j

/-- What `lookup` finds in the directory, if anything; `none` where the inum is read from
blanks. With `indexer` at -1 the length that it passes to `substr` is one less, and `npos` if
the match is at the start. -/
def lookupInum (buffer fileName : Str) : Option (Option Inum) :=
  match find (fileName ++ [';']) buffer with
  | none => some none
  | some start =>
    let after := indexerFrom buffer start
    (if after ≠ 0 then n2i ((buffer.drop after).take (start - after))
      else if start = 0 then n2i buffer
      else n2i (buffer.take (start - 1))).map some

/-- What `unlink` leaves of the directory; `none` where it computes an iterator
outside the string. -/
def unlinkRest (buffer fileName : Str) (inum : Inum) : Option Str :=
  (find (fileName ++ [';']) buffer).bind fun namePos =>
    (find (filename inum) buffer).bind fun inumPos =>
      (find [';'] (buffer.drop namePos)).bind fun n =>
        if inumPos ≤ namePos + n + 1 then
          some (buffer.take inumPos ++ buffer.drop (namePos + n + 1))
        else none

theorem render_append (es fs : List Entry) : render (es ++ fs) = render es ++ render fs :=
  List.flatMap_append

theorem render_snoc (es : List Entry) (x : Entry) : render (es ++ [x]) = render es ++ x.text := by
  simp [render]

theorem render_concat (es : List Entry) (x : Entry) :
    render (es.concat x) = render es ++ (filename x.inum ++ ':' :: x.name) ++ [';'] := by
  simp [render_snoc, Entry.text]

theorem render_split (l r : List Entry) (x : Entry) :
    render (l ++ x :: r) = render l ++ (x.text ++ render r) :=
  render_append l (x :: r)

theorem render_middle (l r : List Entry) (x : Entry) {u w : Str} (hu : x.name = u ++ w) :
    render (l ++ x :: r) =
      render l ++ ((filename x.inum ++ ':' :: u) ++ (w ++ ';' :: render r)) := by
  simp [render_split, Entry.text, hu]

/-- Names that an entry can be told by. -/
def NameOk (n : Str) : Prop := ':' ∉ n ∧ ';' ∉ n

instance (n : Str) : Decidable (NameOk n) := by
  unfold NameOk
  infer_instance

theorem isDigit_of_mem_filename (k : Inum) (c : Char) (h : c ∈ filename k) : c.isDigit = true :=
  Nat.isDigit_of_mem_toDigits (by decide) (by decide) h

theorem filename_nameOk (k : Inum) : NameOk (filename k) := by
  constructor <;> intro h
  · exact absurd (isDigit_of_mem_filename k _ h) (by decide)
  · exact absurd (isDigit_of_mem_filename k _ h) (by decide)

theorem filename_ne_nil (k : Inum) : filename k ≠ [] := Nat.toDigits_ne_nil

theorem toNat_of_isDigit (c : Char) (h : c.isDigit = true) : 48 ≤ c.toNat ∧ c.toNat ≤ 57 := by
  simp only [Char.isDigit, Bool.and_eq_true, decide_eq_true_eq, ge_iff_le] at h
  exact ⟨UInt32.le_iff_toNat_le.mp h.1, UInt32.le_iff_toNat_le.mp h.2⟩

theorem not_isSpace_of_isDigit (c : Char) (h : c.isDigit = true) : isSpace c = false := by
  obtain ⟨hlo,hhi⟩ := toNat_of_isDigit c h
  simp only [isSpace, List.contains_eq_mem, decide_eq_false_iff_not, List.mem_cons,
    List.not_mem_nil, or_false]
  omega

theorem signOf_of_isDigit (c : Char) (s : Str) (h : c.isDigit = true) :
    signOf (c :: s) = (false, c :: s) := by
  have hminus : c ≠ '-' := by
    rintro rfl
    exact absurd h (by decide)
  have hplus : c ≠ '+' := by
    rintro rfl
    exact absurd h (by decide)
  unfold signOf
  split
  · next hr => exact absurd (List.cons.inj hr).1 hminus
  · next hr => exact absurd (List.cons.inj hr).1 hplus
  · rfl

/-- A printed inum is read back, up to a character that is no digit. -/
theorem n2i_filename (k : Inum) (s : Str) (hs : s.takeWhile Char.isDigit = []) :
    n2i (filename k ++ s) = some k := by
  obtain ⟨c,cs,hcs⟩ : ∃ c cs, filename k = c :: cs :=
    List.exists_cons_of_ne_nil (filename_ne_nil k)
  have hc : c.isDigit = true := isDigit_of_mem_filename k c (by simp [hcs])
  have hskip : (filename k ++ s).dropWhile isSpace = filename k ++ s := by
    rw [hcs, List.cons_append]
    exact List.dropWhile_cons_of_neg (by simp [not_isSpace_of_isDigit c hc])
  have hsigned : signOf (filename k ++ s) = (false, filename k ++ s) := by
    rw [hcs, List.cons_append, signOf_of_isDigit c _ hc]
  have htake : (filename k ++ s).takeWhile Char.isDigit = filename k := by
    rw [List.takeWhile_append_of_pos (isDigit_of_mem_filename k), hs, List.append_nil]
  have hvalue : Nat.ofDigitChars 10 (filename k) 0 = k.toNat :=
    Nat.ofDigitChars_toDigits (by decide) (by decide)
  have hne : filename k ++ s ≠ [] := List.append_ne_nil_of_left_ne_nil (filename_ne_nil k) s
  rw [n2i, hskip, if_neg hne]
  simp only [readInum, hsigned, htake, hvalue]
  rw [if_neg (Nat.not_le.mpr k.isLt), if_neg Bool.false_ne_true, BitVec.ofNat_toNat,
    BitVec.setWidth_eq]

theorem generateInum_toNat (rand : BitVec 31) : (generateInum rand).toNat = rand.toNat := by
  have hlt : rand.toNat < 2^31 := rand.isLt
  have hzero : generateInum rand = rand.setWidth 64 := BitVec.zero_or
  rw [hzero, BitVec.toNat_setWidth]
  omega

theorem generateDirInum_toNat (rand : BitVec 31) : (generateDirInum rand).toNat = rand.toNat := by
  have hlt : rand.toNat < 2^31 := rand.isLt
  have hmask : (0x7FFFFFFF : Inum).toNat = 2^31 - 1 := rfl
  rw [generateDirInum, BitVec.toNat_and, hmask, Nat.and_two_pow_sub_one_eq_mod, generateInum_toNat]
  omega

theorem generateFileInum_toNat (rand : BitVec 31) :
    (generateFileInum rand).toNat = 2^31 + rand.toNat := by
  have hbit : (0x80000000 : Inum).toNat = 2^31 := rfl
  have hor := Nat.two_pow_add_eq_or_of_lt rand.isLt 1
  rw [Nat.mul_one] at hor
  rw [generateFileInum, BitVec.toNat_or, hbit, generateInum_toNat, Nat.or_comm, hor]

theorem isfile_eq (i : Inum) : isfile i = i.getLsbD 31 := by
  have hbit : (0x80000000 : Inum) = BitVec.twoPow 64 31 := rfl
  rw [isfile, hbit, BitVec.and_twoPow]
  cases i.getLsbD 31 <;> rfl

theorem isfile_generateFileInum (rand : BitVec 31) : isfile (generateFileInum rand) = true := by
  rw [isfile_eq, generateFileInum, BitVec.getLsbD_or]
  exact Bool.or_true _

theorem isfile_generateDirInum (rand : BitVec 31) : isfile (generateDirInum rand) = false := by
  rw [isfile_eq, generateDirInum, BitVec.getLsbD_and]
  exact Bool.and_false _

theorem scanFrom_plain (buffer w cs : Str) (s : Scan) (i : ℕ) (h : NameOk w) :
    scanFrom buffer s i (w ++ cs) = scanFrom buffer s (i + w.length) cs := by
  induction w generalizing i with
  | nil => rfl
  | cons c w ih =>
    obtain ⟨hcolon,hsemi⟩ := h
    rw [List.mem_cons, not_or] at hcolon hsemi
    have hstep : s.step buffer i c = some s := by
      rw [Scan.step, if_neg (Ne.symm hcolon.1), if_neg (Ne.symm hsemi.1)]
    rw [List.cons_append, scanFrom, hstep, Option.bind_some, ih (i + 1) ⟨hcolon.2, hsemi.2⟩,
      List.length_cons]
    congr 1
    omega

theorem scanFrom_entry (before after : Str) (x : Entry) (s : Scan) (hx : NameOk x.name)
    (hs : s.start = before.length) :
    ∃ s', scanFrom (before ++ (x.text ++ after)) s before.length (x.text ++ after) =
        scanFrom (before ++ (x.text ++ after)) s' (before ++ x.text).length after ∧
      s'.start = (before ++ x.text).length ∧ s'.added = s.added ++ [x] := by
  have htext : x.text ++ after = filename x.inum ++ (':' :: (x.name ++ (';' :: after))) := by
    simp [Entry.text]
  rw [htext]
  let buffer := before ++ (filename x.inum ++ (':' :: (x.name ++ (';' :: after))))
  let i := before.length + (filename x.inum).length
  let s1 : Scan := { s with delimPos := some i, fileInum := filename x.inum }
  let s2 : Scan := { s1 with start := i + 1 + x.name.length + 1, added := s.added ++ [x] }
  have hcolon : s.step buffer i ':' = some s1 := by
    have hcut : substr buffer s.start (i - s.start) = some (filename x.inum) := by
      rw [hs, show i - before.length = (filename x.inum).length by omega]
      exact substr_middle before _ _
    rw [Scan.step, if_pos rfl, hcut]
    rfl
  have hsemi : s1.step buffer (i + 1 + x.name.length) ';' = some s2 := by
    have hbuf : buffer = (before ++ (filename x.inum ++ [':'])) ++ (x.name ++ (';' :: after)) := by
      simp [buffer]
    have hlen : (before ++ (filename x.inum ++ [':'])).length = i + 1 := by
      simp [i]
      omega
    have hcut := substr_middle (before ++ (filename x.inum ++ [':'])) x.name (';' :: after)
    rw [← hbuf, hlen] at hcut
    have hinum : n2i s1.fileInum = some x.inum := by
      simpa using n2i_filename x.inum [] rfl
    rw [Scan.step, if_neg (by decide), if_pos rfl]
    change Option.bind (some i) _ = _
    rw [Option.bind_some, show i + 1 + x.name.length - i - 1 = x.name.length by omega, hcut,
      Option.bind_some, hinum, Option.map_some]
  refine ⟨s2, ?_, ?_, rfl⟩
  · change scanFrom buffer s before.length _ = scanFrom buffer s2 _ after
    rw [scanFrom_plain buffer _ _ s _ (filename_nameOk x.inum), scanFrom, hcolon, Option.bind_some,
      scanFrom_plain buffer _ _ s1 _ hx, scanFrom, hsemi, Option.bind_some]
    congr 1
    simp [Entry.text]
    omega
  · change i + 1 + x.name.length + 1 = _
    simp [Entry.text, i]
    omega

theorem scanFrom_render (before : Str) (es : List Entry) (s : Scan) (hes : ∀ x ∈ es, NameOk x.name)
    (hs : s.start = before.length) :
    (scanFrom (before ++ render es) s before.length (render es)).map Scan.added =
      some (s.added ++ es) := by
  induction es generalizing before s with
  | nil => simp [render, scanFrom]
  | cons x es ih =>
    have hx := hes x (by simp)
    obtain ⟨s',hscan,hstart,hadded⟩ := scanFrom_entry before (render es) x s hx hs
    have hih := ih (before ++ x.text) s' (fun y hy => hes y (by simp [hy])) hstart
    have hrender : render (x :: es) = x.text ++ render es := rfl
    rw [hrender, hscan, ← List.append_assoc, hih, hadded]
    simp

/-- A directory of well-formed entries is listed as it was written. -/
theorem fuseserverReaddir_render (es : List Entry) (hes : ∀ x ∈ es, NameOk x.name) :
    fuseserverReaddir (render es) = some es := by
  have h := scanFrom_render [] es ⟨0, none, [], []⟩ hes rfl
  simpa [fuseserverReaddir] using h

theorem name_infix_render (es : List Entry) (x : Entry) (hx : x ∈ es) : x.name <:+: render es := by
  obtain ⟨l,r,rfl⟩ := List.append_of_mem hx
  refine ⟨render l ++ filename x.inum ++ [':'], [';'] ++ render r, ?_⟩
  simp [render, Entry.text]

/-- `unlink` takes out exactly one entry if its searches hit the start of that entry
and the start of its name. -/
theorem unlinkRest_of_hit (l r : List Entry) (x : Entry) (i : Inum) (hx : NameOk x.name)
    (hinum : find (filename i) (render (l ++ x :: r)) = some (render l).length)
    (hname : find (x.name ++ [';']) (render (l ++ x :: r)) =
      some ((render l).length + (filename x.inum).length + 1)) :
    unlinkRest (render (l ++ x :: r)) x.name i = some (render (l ++ r)) := by
  have hlen : (render l ++ (filename x.inum ++ [':'])).length =
      (render l).length + (filename x.inum).length + 1 := by
    simp
    omega
  have hdrop : (render (l ++ x :: r)).drop ((render l).length + (filename x.inum).length + 1) =
      x.name ++ (';' :: render r) := by
    rw [render_middle l r x (List.nil_append _).symm, ← List.append_assoc, ← hlen, List.drop_left]
  have htake : (render (l ++ x :: r)).take (render l).length = render l := by
    rw [render_split, List.take_left]
  have hend : (render (l ++ x :: r)).drop
      ((render l).length + (filename x.inum).length + 1 + x.name.length + 1) = render r := by
    have he : (render l ++ x.text).length =
        (render l).length + (filename x.inum).length + 1 + x.name.length + 1 := by
      simp [Entry.text]
      omega
    rw [render_split, ← he, ← List.append_assoc, List.drop_left]
  rw [unlinkRest, hname, Option.bind_some, hinum, Option.bind_some, hdrop,
    find_singleton ';' x.name _ hx.2, Option.bind_some, if_pos (by omega), htake, hend,
    render_append]

end Yfs.Dir
