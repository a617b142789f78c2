import Mathlib.Data.List.TakeWhile
import Yfs.Directory

/-! Reading from a `std::istream`: formatted reads of words and numbers, `get` and
`getline`. A read that meets the end of the input sets `eofbit`; a read that starts on
a stream with `eofbit` or `failbit` set fails and stores nothing. -/
namespace Yfs
open Dir (isSpace signOf)

structure Istream where
  rest : List Char
  eof : Bool
  fail : Bool
  deriving DecidableEq

namespace Istream

def ofText (s : List Char) : Istream := ⟨s, false, false⟩

def good (s : Istream) : Bool := !s.eof && !s.fail

/-- The sentry of a formatted read. It fails at the end of the input. -/
def skipws (s : Istream) : Istream :=
  if s.good = true then
    match s.rest.dropWhile isSpace with
    | [] => ⟨[], true, true⟩
    | c :: r => ⟨c :: r, false, false⟩
  else { s with fail := true }

/-- `is >> str`. -/
def word (s : Istream) (str : List Char) : List Char × Istream :=
  let t := s.skipws
  if t.fail = true then (str, t)
  else
    let rest := t.rest.dropWhile (fun c => !isSpace c)
    (t.rest.takeWhile (fun c => !isSpace c), ⟨rest, rest.isEmpty, false⟩)

/-- `is >> n` for an `unsigned n`. Without digits it stores 0 and fails; a number that is
too large is stored as the largest one, and fails as well. -/
def unsigned (s : Istream) (n : ℕ) : ℕ × Istream :=
  let t := s.skipws
  if t.fail = true then (n, t)
  else
    let signed := signOf t.rest
    let digits := signed.2.takeWhile Char.isDigit
    let rest := signed.2.dropWhile Char.isDigit
    let value := Nat.ofDigitChars 10 digits 0
    if digits = [] then (0, ⟨rest, rest.isEmpty, true⟩)
    else if value ≥ 2^32 then (2^32 - 1, ⟨rest, rest.isEmpty, true⟩)
    else (if signed.1 = true then (2^32 - value) % 2^32 else value, ⟨rest, rest.isEmpty, false⟩)

/-- `is.get()`, without the character. -/
def get (s : Istream) : Istream :=
  if s.good = true then
    match s.rest with
    | [] => ⟨[], true, true⟩
    | _ :: r => ⟨r, false, false⟩
  else { s with fail := true }

/-- `getline(is, v)`. -/
def getline (s : Istream) (v : List Char) : List Char × Istream :=
  if s.good = true then
    match s.rest with
    | [] => ([], ⟨[], true, true⟩)
    | c :: r =>
      match (c :: r).dropWhile (· ≠ '\n') with
      | [] => (c :: r, ⟨[], true, false⟩)
      | _ :: r' => ((c :: r).takeWhile (· ≠ '\n'), ⟨r', false, false⟩)
  else (v, { s with fail := true })

/-- The text ends the word in front of it: it is over, or goes on with a blank. -/
def Stops (s : List Char) : Prop := ∀ c ∈ s.head?, isSpace c = true

theorem stops_nil : Stops [] := fun _ hc => nomatch hc

theorem stops_cons {c : Char} {s : List Char} (h : isSpace c = true) : Stops (c :: s) := by
  intro d hd
  cases hd
  exact h

theorem takeWhile_append_stop {p : Char → Bool} (w s : List Char) (hw : ∀ c ∈ w, p c = true)
    (hs : ∀ c ∈ s.head?, p c = false) : (w ++ s).takeWhile p = w ∧ (w ++ s).dropWhile p = s := by
  have hnone : s.takeWhile p = [] ∧ s.dropWhile p = s := by
    cases s with
    | nil => exact ⟨rfl, rfl⟩
    | cons c s =>
      have hc := hs c rfl
      simp [hc]
  rw [List.takeWhile_append_of_pos hw, List.dropWhile_append_of_pos hw, hnone.1, hnone.2]
  exact ⟨List.append_nil w, rfl⟩

theorem skipws_ofText (b : List Char) (c : Char) (s : List Char) (hb : ∀ d ∈ b, isSpace d = true)
    (hc : isSpace c = false) : (ofText (b ++ c :: s)).skipws = ofText (c :: s) := by
  have hdrop := (takeWhile_append_stop b (c :: s) hb (fun d hd => by cases hd; exact hc)).2
  simp [skipws, ofText, good, hdrop]

theorem skipws_end (b : List Char) (hb : ∀ d ∈ b, isSpace d = true) :
    (ofText b).skipws = ⟨[], true, true⟩ := by
  have hdrop : b.dropWhile isSpace = [] := List.dropWhile_eq_nil_iff.mpr hb
  simp [skipws, ofText, good, hdrop]

theorem word_ofText (b w s str : List Char) (hb : ∀ d ∈ b, isSpace d = true) (hne : w ≠ [])
    (hw : ∀ c ∈ w, isSpace c = false) (hs : Stops s) :
    (ofText (b ++ (w ++ s))).word str = (w, ⟨s, s.isEmpty, false⟩) := by
  cases w with
  | nil => exact absurd rfl hne
  | cons c w =>
    have hskip := skipws_ofText b c (w ++ s) hb (hw c List.mem_cons_self)
    obtain ⟨htake,hdrop⟩ := takeWhile_append_stop (p := fun c => !isSpace c) (c :: w) s
      (fun d hd => by rw [hw d hd]; rfl) (fun d hd => by rw [hs d hd]; rfl)
    rw [List.cons_append] at htake hdrop
    simp only [word, List.cons_append, hskip]
    simp only [ofText, htake, hdrop, Bool.false_eq_true, if_false]

theorem unsigned_ofText (b s : List Char) (n old : ℕ) (hb : ∀ d ∈ b, isSpace d = true)
    (hn : n < 2^32) (hs : ∀ c ∈ s.head?, c.isDigit = false) :
    (ofText (b ++ (Nat.toDigits 10 n ++ s))).unsigned old = (n, ⟨s, s.isEmpty, false⟩) := by
  have hdigit : ∀ c ∈ Nat.toDigits 10 n, c.isDigit = true := fun c hc =>
    Nat.isDigit_of_mem_toDigits (by decide) (by decide) hc
  have hvalue : Nat.ofDigitChars 10 (Nat.toDigits 10 n) 0 = n :=
    Nat.ofDigitChars_toDigits (by decide) (by decide)
  obtain ⟨htake,hdrop⟩ := takeWhile_append_stop (Nat.toDigits 10 n) s hdigit hs
  cases hd : Nat.toDigits 10 n with
  | nil => exact absurd hd Nat.toDigits_ne_nil
  | cons c w =>
    rw [hd] at htake hdrop hdigit hvalue
    have hc := hdigit c List.mem_cons_self
    have hskip := skipws_ofText b c (w ++ s) hb (Dir.not_isSpace_of_isDigit c hc)
    have hsign : signOf (c :: (w ++ s)) = (false, c :: (w ++ s)) := Dir.signOf_of_isDigit c _ hc
    rw [List.cons_append] at htake hdrop
    simp only [unsigned, List.cons_append, hskip]
    simp only [ofText, hsign, htake, hdrop, hvalue, Bool.false_eq_true, if_false, reduceCtorEq,
      ge_iff_le, Nat.not_le.mpr hn]

theorem get_ofText (c : Char) (s : List Char) : (ofText (c :: s)).get = ofText s := rfl

/-- A line is read with the newline after it, or to the end of the input. -/
theorem getline_ofText (v s old : List Char) (hv : '\n' ∉ v) :
    (ofText (v ++ '\n' :: s)).getline old = (v, ofText s) := by
  obtain ⟨htake,hdrop⟩ := takeWhile_append_stop (p := fun c => decide (c ≠ '\n')) v ('\n' :: s)
    (fun c hc => decide_eq_true (fun h => hv (h ▸ hc))) (fun c hc => by cases hc; decide)
  cases v with
  | nil => rfl
  | cons c v =>
    rw [List.cons_append] at htake hdrop
    simp only [getline, ofText, good, List.cons_append, htake, hdrop, Bool.not_false, Bool.and_true,
      if_true]

theorem getline_end (v old : List Char) (hv : '\n' ∉ v) :
    (ofText v).getline old = (v, ⟨[], true, v.isEmpty⟩) := by
  have hdrop : v.dropWhile (fun c => decide (c ≠ '\n')) = [] :=
    List.dropWhile_eq_nil_iff.mpr fun c hc => decide_eq_true (fun h => hv (h ▸ hc))
  cases v with
  | nil => rfl
  | cons c v => simp only [getline, ofText, good, hdrop, Bool.not_false, Bool.and_true, if_true,
      List.isEmpty_cons]

end Istream
end Yfs
