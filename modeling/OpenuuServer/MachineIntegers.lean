import Mathlib.Data.Int.Notation
import Mathlib.Tactic.Common

/-! Integers of a fixed range and their decimal text. Numbers are plain integers; a range says which
of them a type holds, what is left of one that it does not hold, and which texts it reads. -/
namespace OpenuuServer.MachineIntegers

structure Width where
  low : Int
  high : Int
  zero : low ≤ 0 ∧ 0 ≤ high

def i32 : Width := ⟨-2147483648,2147483647,by decide⟩
def u16 : Width := ⟨0,65535,by decide⟩

def Width.fits (w : Width) (n : Int) : Bool := decide (w.low ≤ n ∧ n ≤ w.high)

/- The residue that two's complement keeps. -/
def Width.wrap (w : Width) (n : Int) : Int := w.low + (n - w.low) % (w.high - w.low + 1)

theorem fitsBounds {w : Width} {n : Int} : w.fits n = true ↔ w.low ≤ n ∧ n ≤ w.high := decide_eq_true_iff

theorem wrapFits (w : Width) (n : Int) : w.fits (w.wrap n) = true := by
  have positive : 0 < w.high - w.low + 1 := by have := w.zero; omega
  have least := Int.emod_nonneg (n - w.low) (Int.ne_of_gt positive)
  have most := Int.emod_lt_of_pos (n - w.low) positive
  rw [fitsBounds,Width.wrap]
  omega

theorem wrapExact {w : Width} {n : Int} (fits : w.fits n = true) : w.wrap n = n := by
  have bounds := fitsBounds.mp fits
  rw [Width.wrap,Int.emod_eq_of_lt (by omega) (by omega)]
  omega

def decimal (digits : List Char) : Option Nat :=
  if digits ≠ [] ∧ digits.all Char.isDigit = true then some (Nat.ofDigitChars 10 digits 0) else none

/- The integer a text denotes: a sign, if any, and at least one digit. -/
def numeral : List Char → Option Int
  | '-' :: digits => (decimal digits).map fun n => -(n : Int)
  | '+' :: digits => (decimal digits).map fun n => (n : Int)
  | digits => (decimal digits).map fun n => (n : Int)

/- `str::parse`; a type without negative numbers takes no minus sign, not even before a zero. -/
def Width.parse (w : Width) (text : String) : Option Int :=
  if w.low = 0 ∧ text.toList.head? = some '-' then none
  else match numeral text.toList with
    | some n => if w.fits n then some n else none
    | none => none

theorem decimalDigits (n : Nat) : decimal (Nat.toDigits 10 n) = some n := by
  have digits : (Nat.toDigits 10 n).all Char.isDigit = true :=
    List.all_eq_true.mpr fun _ member => Nat.isDigit_of_mem_toDigits (by decide) (by decide) member
  rw [decimal,if_pos ⟨Nat.toDigits_ne_nil,digits⟩,Nat.ofDigitChars_ten_toDigits]

theorem signFree (n : Nat) : ∃ c rest, Nat.toDigits 10 n = c :: rest ∧ c ≠ '-' ∧ c ≠ '+' := by
  cases shape : Nat.toDigits 10 n with
  | nil => exact absurd shape Nat.toDigits_ne_nil
  | cons c rest =>
    have digit : c.isDigit = true :=
      Nat.isDigit_of_mem_toDigits (n := n) (by decide) (by decide) (shape ▸ List.mem_cons_self)
    refine ⟨c,rest,rfl,?_,?_⟩
    · rintro rfl
      exact absurd digit (by decide)
    · rintro rfl
      exact absurd digit (by decide)

theorem numeralDigits (n : Nat) : numeral (Nat.toDigits 10 n) = some (n : Int) := by
  obtain ⟨c,rest,shape,minus,plus⟩ := signFree n
  have value := decimalDigits n
  rw [shape] at value ⊢
  unfold numeral
  split
  · rename_i same
    exact absurd (List.cons.inj same).1 minus
  · rename_i same
    exact absurd (List.cons.inj same).1 plus
  · rw [value]
    rfl

theorem textNatural (n : Nat) : (toString (n : Int)).toList = Nat.toDigits 10 n := Nat.toList_repr

theorem textNegative (n : Nat) : (toString (Int.negSucc n)).toList = '-' :: Nat.toDigits 10 (n + 1) := by
  have shape : toString (Int.negSucc n) = "-" ++ Nat.repr (n + 1) := rfl
  rw [shape,String.toList_append,Nat.toList_repr]
  rfl

/- A number printed and read again is itself, wherever it fits. -/
theorem parseText (w : Width) (n : Int) : w.parse (toString n) = if w.fits n then some n else none := by
  cases n with
  | ofNat k =>
    obtain ⟨c,rest,shape,minus,_⟩ := signFree k
    have head : (toString (Int.ofNat k)).toList.head? ≠ some '-' := by
      rw [Int.ofNat_eq_natCast,textNatural,shape]
      exact fun same => minus (Option.some.inj same)
    rw [Width.parse,if_neg fun both => head both.2,Int.ofNat_eq_natCast,textNatural,numeralDigits]
  | negSucc k =>
    have value : numeral (toString (Int.negSucc k)).toList = some (Int.negSucc k) := by
      rw [textNegative,numeral,decimalDigits]
      rfl
    rw [Width.parse,value]
    split
    · rename_i unsigned
      rw [if_neg]
      rw [fitsBounds]
      omega
    · rfl

theorem parseValue {w : Width} {text : String} {n : Int} (parsed : w.parse text = some n) :
    numeral text.toList = some n ∧ w.fits n = true := by
  unfold Width.parse at parsed
  split at parsed
  · cases parsed
  · split at parsed
    · rename_i k value
      split at parsed
      · rename_i fits
        cases Option.some.inj parsed
        exact ⟨value,fits⟩
      · cases parsed
    · cases parsed

theorem parseNumeral {w : Width} {text : String} {n : Int} (signed : w.low ≠ 0) (value : numeral text.toList = some n)
    (fits : w.fits n = true) : w.parse text = some n := by
  rw [Width.parse,if_neg fun both => signed both.1,value]
  exact if_pos fits

end OpenuuServer.MachineIntegers
