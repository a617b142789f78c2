import Mathlib.Data.List.Basic
import Mathlib.Data.List.GetD
import Mathlib.Tactic.Common

namespace Yfs

@[ext] structure ByteFile (β : Type*) (zero : β) where
  size : ℕ
  byte : ℕ → β
  beyond : ∀ i, size ≤ i → byte i = zero

namespace ByteFile
variable {β : Type*} {zero : β}

def ofList (zero : β) (l : List β) : ByteFile β zero :=
  ⟨l.length, fun i => l.getD i zero, fun _ hi => List.getD_eq_default l zero hi⟩

/-- The bytes of `data` are at `off`; the file grows to its end, and the gap is zero. -/
def write (f : ByteFile β zero) (off : ℕ) (data : List β) : ByteFile β zero where
  size := max f.size (off + data.length)
  byte i := if off ≤ i ∧ i < off + data.length then data.getD (i - off) zero else f.byte i
  beyond i hi := by
    rw [if_neg (by omega)]
    exact f.beyond i (by omega)

def truncate (f : ByteFile β zero) (n : ℕ) : ByteFile β zero where
  size := n
  byte i := if i < n then f.byte i else zero
  beyond _ hi := if_neg (by omega)

/-- At most `n` bytes from `off` on, as far as the file goes. -/
def read (f : ByteFile β zero) (off n : ℕ) : List β :=
  (List.range (min n (f.size - off))).map fun i => f.byte (off + i)

theorem read_ofList (l : List β) (off n : ℕ) :
    (ofList zero l).read off n = (l.drop off).take n := by
  apply List.ext_getElem?
  intro i
  have hsize : (ofList zero l).size = l.length := rfl
  rw [read, List.getElem?_map, hsize]
  by_cases hi : i < min n (l.length - off)
  · have hlt : off + i < l.length := by omega
    rw [List.getElem?_range hi, List.getElem?_take_of_lt (by omega), List.getElem?_drop]
    simp only [Option.map_some, ofList]
    rw [List.getD_eq_getElem l zero hlt, List.getElem?_eq_getElem hlt]
  · rw [List.getElem?_eq_none (by rw [List.length_range]; omega), Option.map_none,
      List.getElem?_eq_none]
    rw [List.length_take, List.length_drop]
    omega

/-- A list that has the bytes of the old one outside of `data` and zeros in the gap is the file
after the write. -/
theorem ofList_write
    {l data g : List β} {off : ℕ} (hlen : g.length = max l.length (off + data.length))
    (hin : (g.drop off).take data.length = data)
    (hkept : ∀ i < l.length, i < off ∨ off + data.length ≤ i → g[i]? = l[i]?)
    (hgap : ∀ i, l.length ≤ i → i < off → g[i]? = some zero) :
    ofList zero g = (ofList zero l).write off data := by
  ext i
  · exact hlen
  · simp only [write, ofList, List.getD_eq_getElem?_getD]
    split_ifs with hi
    · have hdata : data[i - off]? = g[i]? := by
        rw [← hin, List.getElem?_take_of_lt (by omega), List.getElem?_drop,
          Nat.add_sub_cancel' hi.1]
      rw [hdata]
    · by_cases hl : i < l.length
      · rw [hkept i hl (by omega)]
      · rw [List.getElem?_eq_none (by omega : l.length ≤ i)]
        by_cases hoff : i < off
        · rw [hgap i (by omega) hoff]
          rfl
        · rw [List.getElem?_eq_none (by omega)]

theorem ofList_truncate (l : List β) (n : ℕ) :
    ofList zero (l.take n ++ List.replicate (n - l.length) zero) = (ofList zero l).truncate n := by
  ext i
  · simp only [ofList, truncate, List.length_append, List.length_take, List.length_replicate]
    omega
  · simp only [truncate, ofList, List.getD_eq_getElem?_getD]
    by_cases hi : i < n
    · rw [if_pos hi]
      by_cases hl : i < l.length
      · rw [List.getElem?_append_left (by rw [List.length_take]; omega),
          List.getElem?_take_of_lt hi]
      · rw [List.getElem?_append_right (by rw [List.length_take]; omega), List.length_take,
          List.getElem?_replicate, if_pos (by omega), List.getElem?_eq_none (by omega)]
        rfl
    · rw [if_neg hi, List.getElem?_eq_none]
      · rfl
      · rw [List.length_append, List.length_take, List.length_replicate]
        omega

end ByteFile
end Yfs
