import Mathlib.Data.Nat.Notation
import Mathlib.Tactic.Common

/-! Flags packed into bytes, the first one in the highest bit of the first byte. Bits are set one at
a time in a buffer of zeros; a position outside the buffer is an error. -/
namespace OpenuuServer.Bitmap

def mask (i : Nat) : UInt8 := 1 <<< (7 - i % 8).toUInt8

def blank (n : Nat) : List UInt8 := List.replicate ((n + 7) / 8) 0

/- `bytes[i / 8] |= mask i` -/
def mark (bytes : List UInt8) (i : Nat) : Option (List UInt8) :=
  match bytes[i / 8]? with
  | some byte => some (bytes.set (i / 8) (byte ||| mask i))
  | none => none

/- `bytes[i / 8] & mask i != 0` -/
def lit (bytes : List UInt8) (i : Nat) : Option Bool := bytes[i / 8]?.map fun byte => decide (byte &&& mask i ≠ 0)

/- Marks the positions from `i` on whose flag is set. -/
def fill (i : Nat) : List Bool → List UInt8 → Option (List UInt8)
  | [],bytes => some bytes
  | flag :: rest,bytes => do
    let bytes ← if flag then mark bytes i else some bytes
    fill (i + 1) rest bytes

theorem maskMod (i : Nat) : mask (i % 8) = mask i := by rw [mask,mask,Nat.mod_mod]

theorem maskAnd (i j : Nat) : mask i &&& mask j ≠ 0 ↔ i % 8 = j % 8 := by
  have all : ∀ k < 8, ∀ l < 8, mask k &&& mask l ≠ 0 ↔ k = l := by decide
  have here := all (i % 8) (Nat.mod_lt i (by decide)) (j % 8) (Nat.mod_lt j (by decide))
  rw [maskMod,maskMod] at here
  exact here

theorem maskOr (byte : UInt8) (i j : Nat) : (byte ||| mask i) &&& mask j ≠ 0 ↔ i % 8 = j % 8 ∨ byte &&& mask j ≠ 0 := by
  have spread : (byte ||| mask i) &&& mask j = byte &&& mask j ||| mask i &&& mask j := by
    apply UInt8.toBitVec_inj.mp
    simp only [UInt8.toBitVec_and,UInt8.toBitVec_or]
    exact BitVec.and_or_distrib_right
  rw [spread,Ne,UInt8.or_eq_zero_iff,not_and_or,or_comm]
  exact or_congr (maskAnd i j) Iff.rfl

theorem markInside {bytes : List UInt8} {i : Nat} (inside : i < 8 * bytes.length) :
    ∃ bytes', mark bytes i = some bytes' ∧ bytes'.length = bytes.length := by
  have less : i / 8 < bytes.length := Nat.div_lt_of_lt_mul inside
  refine ⟨bytes.set (i / 8) (bytes[i / 8] ||| mask i),?_,List.length_set⟩
  rw [mark,List.getElem?_eq_getElem less]

theorem litMark {bytes bytes' : List UInt8} {i : Nat} (marked : mark bytes i = some bytes') (j : Nat) :
    lit bytes' j = if j = i then some true else lit bytes j := by
  unfold mark at marked
  split at marked
  · rename_i byte there
    cases Option.some.inj marked
    have less : i / 8 < bytes.length := (List.getElem?_eq_some_iff.mp there).1
    unfold lit
    by_cases near : i / 8 = j / 8
    · rw [← near,List.getElem?_set_self less,there,Option.map_some,Option.map_some]
      by_cases same : j = i
      · subst same
        rw [if_pos rfl,decide_eq_true ((maskOr byte j j).mpr (.inl rfl))]
      · have apart : ¬ i % 8 = j % 8 := fun equal => same (by omega)
        have kept : (byte ||| mask i) &&& mask j ≠ 0 ↔ byte &&& mask j ≠ 0 := by
          rw [maskOr]
          exact or_iff_right apart
        rw [if_neg same]
        exact congrArg some (decide_eq_decide.mpr kept)
    · rw [List.getElem?_set_ne near,if_neg]
      rintro rfl
      exact near rfl
  · cases marked

theorem litBlank {n j : Nat} (inside : j < 8 * (blank n).length) : lit (blank n) j = some false := by
  have less : j / 8 < (blank n).length := Nat.div_lt_of_lt_mul inside
  unfold lit
  rw [List.getElem?_eq_getElem less]
  simp [blank]

/- As far as the buffer reaches, filling succeeds and sets just the flagged positions. -/
theorem fillSets {flags : List Bool} {i : Nat} {bytes : List UInt8} (room : i + flags.length ≤ 8 * bytes.length) :
    ∃ bytes', fill i flags bytes = some bytes' ∧ bytes'.length = bytes.length ∧
      ∀ j, lit bytes' j = if i ≤ j ∧ flags[j - i]? = some true then some true else lit bytes j := by
  induction flags generalizing i bytes with
  | nil => exact ⟨bytes,rfl,rfl,fun j => by simp⟩
  | cons flag rest ih =>
    rw [List.length_cons] at room
    -- the first flag decides about position i, the others about the positions after it
    have later : ∀ {start : List UInt8}, start.length = bytes.length →
        (∀ j, lit start j = if j = i ∧ flag = true then some true else lit bytes j) →
        ∃ bytes', fill (i + 1) rest start = some bytes' ∧ bytes'.length = bytes.length ∧
          ∀ j, lit bytes' j = if i ≤ j ∧ (flag :: rest)[j - i]? = some true then some true else lit bytes j := by
      intro start length first
      obtain ⟨bytes',filled,same,bits⟩ := @ih (i + 1) start (by omega)
      refine ⟨bytes',filled,same.trans length,fun j => ?_⟩
      rw [bits j,first j]
      rcases Nat.lt_trichotomy j i with before | rfl | after
      · rw [if_neg (by omega),if_neg (by omega),if_neg (by omega)]
      · rw [if_neg (by omega)]
        simp
      · have shift : j - i = j - (i + 1) + 1 := by omega
        rw [shift,List.getElem?_cons_succ]
        by_cases on : rest[j - (i + 1)]? = some true
        · rw [if_pos ⟨after,on⟩,if_pos ⟨Nat.le_of_lt after,on⟩]
        · have apart : ¬ (j = i ∧ flag = true) := fun both => Nat.ne_of_gt after both.1
          rw [if_neg (fun both => on both.2),if_neg apart,if_neg (fun both => on both.2)]
    cases flag with
    | false => exact later rfl fun j => by simp
    | true =>
      obtain ⟨start,marked,length⟩ := @markInside bytes i (by omega)
      have rested := later length fun j => by simpa using litMark marked j
      unfold fill
      rw [if_pos rfl,marked]
      exact rested

end OpenuuServer.Bitmap
