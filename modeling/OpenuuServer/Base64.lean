import Mathlib.Data.List.Nodup
import Mathlib.Data.List.GetD
import Mathlib.Data.Nat.Notation

/-! The standard base64 alphabet with padding. Three bytes make four digits; a last group of one or
two bytes is padded, and its spare bits are zero. -/
namespace OpenuuServer.Base64

def alphabet : List Char :=
  ['A','B','C','D','E','F','G','H','I','J','K','L','M','N','O','P','Q','R','S','T','U','V','W','X','Y','Z',
   'a','b','c','d','e','f','g','h','i','j','k','l','m','n','o','p','q','r','s','t','u','v','w','x','y','z',
   '0','1','2','3','4','5','6','7','8','9','+','/']

def digit (n : Nat) : Char := alphabet.getD n '='

def sextet (c : Char) : Option Nat := if c ∈ alphabet then some (alphabet.idxOf c) else none

def encode : List UInt8 → List Char
  | [] => []
  | [a] => [digit (a.toNat / 4),digit (a.toNat % 4 * 16),'=','=']
  | [a,b] => [digit (a.toNat / 4),digit (a.toNat % 4 * 16 + b.toNat / 16),digit (b.toNat % 16 * 4),'=']
  | a :: b :: c :: rest =>
    digit (a.toNat / 4) :: digit (a.toNat % 4 * 16 + b.toNat / 16) :: digit (b.toNat % 16 * 4 + c.toNat / 64) ::
      digit (c.toNat % 64) :: encode rest

def decode : List Char → Option (List UInt8)
  | [] => some []
  | [c,d,'=','='] => do
    let w ← sextet c
    let x ← sextet d
    if x % 16 = 0 then some [(w * 4 + x / 16).toUInt8] else none
  | [c,d,e,'='] => do
    let w ← sextet c
    let x ← sextet d
    let y ← sextet e
    if y % 4 = 0 then some [(w * 4 + x / 16).toUInt8,(x % 16 * 16 + y / 4).toUInt8] else none
  | c :: d :: e :: f :: rest => do
    let w ← sextet c
    let x ← sextet d
    let y ← sextet e
    let z ← sextet f
    let bytes ← decode rest
    some ((w * 4 + x / 16).toUInt8 :: (x % 16 * 16 + y / 4).toUInt8 :: (y % 4 * 64 + z).toUInt8 :: bytes)
  | _ => none

theorem digitIs {n : Nat} (small : n < alphabet.length) : digit n = alphabet[n] := List.getD_eq_getElem _ _ small

theorem digitMember {n : Nat} (small : n < 64) : digit n ∈ alphabet := by
  rw [digitIs small]
  exact List.getElem_mem _

theorem alphabetApart : alphabet.Nodup := by
  have codes : (alphabet.map Char.toNat).Nodup := by decide +kernel
  exact codes.of_map

theorem sextetDigit {n : Nat} (small : n < 64) : sextet (digit n) = some n := by
  have inside : n < alphabet.length := small
  rw [sextet,if_pos (digitMember small),digitIs inside,alphabetApart.idxOf_getElem]

theorem digitUnpadded {n : Nat} (small : n < 64) : digit n ≠ '=' := by
  intro same
  have member := digitMember small
  rw [same] at member
  exact absurd member (by decide)

theorem byteValue {n : Nat} {a : UInt8} (same : n = a.toNat) : n.toUInt8 = a := by
  subst same
  exact UInt8.ofNat_toNat

theorem decodeEncode (bytes : List UInt8) : decode (encode bytes) = some bytes := by
  induction bytes using encode.induct with
  | case1 => rfl
  | case2 a =>
    have := a.toNat_lt
    rw [encode,decode,sextetDigit (by omega),sextetDigit (by omega)]
    simp only [Option.bind_eq_bind,Option.bind_some]
    rw [if_pos (by omega),byteValue (a := a) (by omega)]
  | case3 a b =>
    have := a.toNat_lt
    have := b.toNat_lt
    have last := digitUnpadded (n := b.toNat % 16 * 4) (by omega)
    rw [encode,decode,sextetDigit (by omega),sextetDigit (by omega),sextetDigit (by omega)]
    · simp only [Option.bind_eq_bind,Option.bind_some]
      rw [if_pos (by omega),byteValue (a := a) (by omega),byteValue (a := b) (by omega)]
    · exact last
  | case4 a b c rest ih =>
    have := a.toNat_lt
    have := b.toNat_lt
    have := c.toNat_lt
    have last := digitUnpadded (n := c.toNat % 64) (by omega)
    rw [encode,decode,sextetDigit (by omega),sextetDigit (by omega),sextetDigit (by omega),sextetDigit (by omega),ih]
    · simp only [Option.bind_eq_bind,Option.bind_some]
      rw [byteValue (a := a) (by omega),byteValue (a := b) (by omega),byteValue (a := c) (by omega)]
    · exact fun _ padded _ => last padded
    · exact fun padded _ => last padded

/- Every character of an encoded text is one of the alphabet or the padding. -/
theorem encodeAlphabet (bytes : List UInt8) : ∀ c ∈ encode bytes, c ∈ alphabet ∨ c = '=' := by
  induction bytes using encode.induct with
  | case1 => exact fun c member => nomatch member
  | case2 a =>
    have := a.toNat_lt
    intro c member
    simp only [encode,List.mem_cons,List.not_mem_nil,or_false,or_self] at member
    rcases member with rfl | rfl | padding
    · exact .inl (digitMember (by omega))
    · exact .inl (digitMember (by omega))
    · exact .inr padding
  | case3 a b =>
    have := a.toNat_lt
    have := b.toNat_lt
    intro c member
    simp only [encode,List.mem_cons,List.not_mem_nil,or_false] at member
    rcases member with rfl | rfl | rfl | padding
    · exact .inl (digitMember (by omega))
    · exact .inl (digitMember (by omega))
    · exact .inl (digitMember (by omega))
    · exact .inr padding
  | case4 a b c rest ih =>
    have := a.toNat_lt
    have := b.toNat_lt
    have := c.toNat_lt
    intro d member
    simp only [encode,List.mem_cons] at member
    rcases member with rfl | rfl | rfl | rfl | later
    · exact .inl (digitMember (by omega))
    · exact .inl (digitMember (by omega))
    · exact .inl (digitMember (by omega))
    · exact .inl (digitMember (by omega))
    · exact ih d later

end OpenuuServer.Base64
