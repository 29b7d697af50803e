import Mathlib.Data.List.Basic
import Mathlib.Data.Nat.Notation

/-! IP addresses and the text the standard library prints for them. The server compares
addresses by their text; that is sound because no two addresses share a text. -/
namespace OpenuuServer.IpText

/- Numbers in a base up to 16 and lists of them between separators. -/
theorem digitCharInjective {a b : Nat} (left : a < 16) (right : b < 16)
    (same : a.digitChar = b.digitChar) : a = b := by
  have all : ∀ a < 16, ∀ b < 16, a.digitChar = b.digitChar → a = b := by decide
  exact all a left b right same

theorem digitsInjective {base : Nat} (more : 1 < base) (few : base ≤ 16) {n k : Nat}
    (same : Nat.toDigits base n = Nat.toDigits base k) : n = k := by
  induction n using Nat.strongRecOn generalizing k with
  | ind n ih =>
    rw [Nat.toDigits_eq_if more,Nat.toDigits_eq_if more (n := k)] at same
    split at same <;> split at same <;> rename_i left right
    · exact digitCharInjective (by omega) (by omega) (List.singleton_inj.mp same)
    · have lengths := congrArg List.length same
      have some : 0 < (Nat.toDigits base (k / base)).length := Nat.length_toDigits_pos
      simp only [List.length_append,List.length_singleton] at lengths
      omega
    · have lengths := congrArg List.length same
      have some : 0 < (Nat.toDigits base (n / base)).length := Nat.length_toDigits_pos
      simp only [List.length_append,List.length_singleton] at lengths
      omega
    · obtain ⟨front,last⟩ := List.append_inj' same rfl
      have low : n % base = k % base :=
        digitCharInjective (by have := Nat.mod_lt n (by omega : 0 < base); omega)
          (by have := Nat.mod_lt k (by omega : 0 < base); omega) (List.singleton_inj.mp last)
      have high : n / base = k / base := ih _ (Nat.div_lt_self (by omega) more) front
      rw [← Nat.div_add_mod n base,← Nat.div_add_mod k base,high,low]

theorem separatorFree {base : Nat} (more : 1 < base) (few : base ≤ 16) {c : Char}
    (apart : ∀ d < 16, d.digitChar ≠ c) (n : Nat) : c ∉ Nat.toDigits base n := by
  induction n using Nat.strongRecOn with
  | ind n ih =>
    rw [Nat.toDigits_eq_if more]
    split
    · simpa using (apart n (by omega)).symm
    · have low := Nat.mod_lt n (by omega : 0 < base)
      simp only [List.mem_append,List.mem_singleton,not_or]
      exact ⟨ih _ (Nat.div_lt_self (by omega) more),(apart _ (by omega)).symm⟩

def joined (separator : Char) (base : Nat) (xs : List Nat) : List Char :=
  [separator].intercalate (xs.map (Nat.toDigits base))

def tokens (base : Nat) : List Nat → List (List Char)
  | [] => [[]]
  | x :: xs => (x :: xs).map (Nat.toDigits base)

theorem tokensInjective {base : Nat} (more : 1 < base) (few : base ≤ 16) {xs ys : List Nat}
    (same : tokens base xs = tokens base ys) : xs = ys := by
  have digits : Function.Injective (Nat.toDigits base) := fun _ _ => digitsInjective more few
  match xs,ys with
  | [],[] => rfl
  | [],y :: ys => simp [tokens] at same
  | x :: xs,[] => simp [tokens] at same
  | x :: xs,y :: ys => exact List.map_injective_iff.mpr digits same

theorem splitJoined {separator : Char} {base : Nat} (more : 1 < base) (few : base ≤ 16)
    (apart : ∀ d < 16, d.digitChar ≠ separator) (xs : List Nat) :
    (joined separator base xs).splitOn separator = tokens base xs := by
  match xs with
  | [] => rfl
  | x :: xs =>
    refine List.splitOn_intercalate separator (fun l member => ?_) (by simp)
    obtain ⟨n,_,rfl⟩ := List.mem_map.mp member
    exact separatorFree more few apart n

theorem joinedInjective {separator : Char} {base : Nat} (more : 1 < base) (few : base ≤ 16)
    (apart : ∀ d < 16, d.digitChar ≠ separator) {xs ys : List Nat}
    (same : joined separator base xs = joined separator base ys) : xs = ys := by
  have split := congrArg (List.splitOn separator) same
  rw [splitJoined more few apart,splitJoined more few apart] at split
  exact tokensInjective more few split

/- Eight 16-bit segments of an IPv6 address. -/
structure Segments where
  list : List UInt16
  eight : list.length = 8
  deriving DecidableEq

inductive IpAddr where
  | v4 (a b c d : UInt8)
  | v6 (segments : Segments)
  deriving DecidableEq

def IpAddr.isLoopback : IpAddr → Bool
  | .v4 a _ _ _ => a = 127
  | .v6 segments => segments.list = [0,0,0,0,0,0,0,1]

structure Span where
  start : Nat
  len : Nat

/- The first longest run of zero segments. -/
def longestZeros : List UInt16 → Nat → Span → Span → Span
  | [],_,longest,_ => longest
  | segment :: rest,i,longest,current =>
    if segment = 0 then
      let current : Span := ⟨if current.len = 0 then i else current.start,current.len + 1⟩
      longestZeros rest (i + 1) (if current.len > longest.len then current else longest) current
    else longestZeros rest (i + 1) longest ⟨0,0⟩

def fmtSubslice (segments : List UInt16) : List Char := joined ':' 16 (segments.map UInt16.toNat)

def v4Chars (a b c d : Nat) : List Char := joined '.' 10 [a,b,c,d]

def v6Chars (segments : List UInt16) : List Char :=
  match segments with
  | [0,0,0,0,0,0xffff,g,h] =>
    [':',':','f','f','f','f',':'] ++ v4Chars (g.toNat / 256) (g.toNat % 256) (h.toNat / 256) (h.toNat % 256)
  | _ =>
    let zeroes := longestZeros segments 0 ⟨0,0⟩ ⟨0,0⟩
    if zeroes.len > 1 then
      fmtSubslice (segments.take zeroes.start) ++ ':' :: ':' ::
        fmtSubslice (segments.drop (zeroes.start + zeroes.len))
    else fmtSubslice segments

def IpAddr.chars : IpAddr → List Char
  | .v4 a b c d => v4Chars a.toNat b.toNat c.toNat d.toNat
  | .v6 segments => v6Chars segments.list

def IpAddr.text (ip : IpAddr) : String := String.ofList ip.chars

/- The span lies inside the list and holds zeros only. -/
def Zeros (segments : List UInt16) (span : Span) : Prop :=
  span.start + span.len ≤ segments.length ∧ ∀ k < span.len, segments[span.start + k]? = some 0

theorem longestZerosSpan (rest : List UInt16) : ∀ (front : List UInt16) (longest current : Span),
    Zeros (front ++ rest) longest → Zeros (front ++ rest) current →
    (current.len = 0 ∨ current.start + current.len = front.length) →
    Zeros (front ++ rest) (longestZeros rest front.length longest current) := by
  induction rest with
  | nil => intro front longest current found _ _; exact found
  | cons segment rest ih =>
    intro front longest current found run adjacent
    have shift : front ++ segment :: rest = (front ++ [segment]) ++ rest := by simp
    have length : (front ++ [segment]).length = front.length + 1 := by simp
    have none : Zeros ((front ++ [segment]) ++ rest) ⟨0,0⟩ := ⟨by simp,fun k less => absurd less (Nat.not_lt_zero k)⟩
    rw [shift] at found run ⊢
    unfold longestZeros
    split
    · rename_i zero
      -- the run grows by this segment, or starts with it
      have grown : Zeros ((front ++ [segment]) ++ rest)
          ⟨if current.len = 0 then front.length else current.start,current.len + 1⟩ := by
        have here : ((front ++ [segment]) ++ rest)[front.length]? = some 0 := by simp [zero]
        unfold Zeros
        split
        · rename_i fresh
          refine ⟨by simp; omega,fun k less => ?_⟩
          have first : k = 0 := by dsimp only at less; omega
          simpa [first] using here
        · rename_i going
          have touching : current.start + current.len = front.length := adjacent.resolve_left going
          refine ⟨by simp; omega,fun k less => ?_⟩
          rcases Nat.lt_or_eq_of_le (Nat.le_of_lt_succ less) with inside | last
          · exact run.2 k inside
          · rw [last,touching]
            exact here
      have next : (if current.len = 0 then front.length else current.start) + (current.len + 1) =
          (front ++ [segment]).length := by split <;> simp <;> omega
      rw [← length]
      refine ih _ _ _ ?_ grown (.inr next)
      by_cases longer : current.len + 1 > longest.len
      · simpa only [if_pos longer] using grown
      · simpa only [if_neg longer] using found
    · rw [← length]
      exact ih _ _ _ found none (.inl rfl)

theorem zerosBetween {segments : List UInt16} {span : Span} (zeros : Zeros segments span) :
    segments = segments.take span.start ++ (List.replicate span.len 0 ++ segments.drop (span.start + span.len)) := by
  have middle : (segments.drop span.start).take span.len = List.replicate span.len 0 := by
    refine List.ext_getElem? fun k => ?_
    rw [List.getElem?_take,List.getElem?_drop,List.getElem?_replicate]
    split
    · exact zeros.2 k (by assumption)
    · rfl
  rw [← middle,← List.drop_drop,List.take_append_drop,List.take_append_drop]

theorem noColon : ∀ d < 16, d.digitChar ≠ ':' := by decide
theorem noDot : ∀ d < 16, d.digitChar ≠ '.' := by decide

theorem notInJoined {separator c : Char} {base : Nat} (more : 1 < base) (few : base ≤ 16)
    (apart : ∀ d < 16, d.digitChar ≠ c) (other : c ≠ separator) (xs : List Nat) :
    c ∉ joined separator base xs := by
  unfold joined
  induction xs with
  | nil => simp
  | cons x xs ih =>
    cases xs with
    | nil => simpa using separatorFree more few apart x
    | cons y ys =>
      simp only [List.map_cons,List.intercalate_cons_cons,List.mem_append,List.mem_singleton,not_or] at ih ⊢
      exact ⟨⟨separatorFree more few apart x,other⟩,ih⟩

/- The three shapes of the text of an IPv6 address. -/
inductive Shape (segments : List UInt16) : List Char → Prop where
  | mapped (g h : UInt16) (same : segments = [0,0,0,0,0,0xffff,g,h]) : Shape segments
      ([':',':','f','f','f','f',':'] ++ v4Chars (g.toNat / 256) (g.toNat % 256) (h.toNat / 256) (h.toNat % 256))
  | compressed (left right : List UInt16)
      (same : segments = left ++ (List.replicate (8 - (left.length + right.length)) 0 ++ right)) :
      Shape segments (fmtSubslice left ++ ':' :: ':' :: fmtSubslice right)
  | full : Shape segments (fmtSubslice segments)

theorem v6Shape {segments : List UInt16} (eight : segments.length = 8) : Shape segments (v6Chars segments) := by
  unfold v6Chars
  split
  · exact .mapped _ _ rfl
  · dsimp only
    split
    · have none : Zeros segments ⟨0,0⟩ := ⟨by simp,fun k less => absurd less (Nat.not_lt_zero k)⟩
      have zeros := longestZerosSpan segments [] ⟨0,0⟩ ⟨0,0⟩ none none (.inl rfl)
      simp only [List.nil_append,List.length_nil] at zeros
      refine .compressed _ _ ?_
      have len : 8 - ((segments.take (longestZeros segments 0 ⟨0,0⟩ ⟨0,0⟩).start).length +
          (segments.drop ((longestZeros segments 0 ⟨0,0⟩ ⟨0,0⟩).start +
            (longestZeros segments 0 ⟨0,0⟩ ⟨0,0⟩).len)).length) =
          (longestZeros segments 0 ⟨0,0⟩ ⟨0,0⟩).len := by
        have inside := zeros.1
        rw [List.length_take,List.length_drop]
        omega
      rw [len]
      exact zerosBetween zeros
    · exact .full

theorem mapToNat {xs ys : List UInt16} (same : xs.map UInt16.toNat = ys.map UInt16.toNat) : xs = ys :=
  List.map_injective_iff.mpr (fun _ _ h => UInt16.toNat_inj.mp h) same

def hex (xs : List UInt16) : List (List Char) := tokens 16 (xs.map UInt16.toNat)

theorem splitFmt (xs : List UInt16) : (fmtSubslice xs).splitOn ':' = hex xs :=
  splitJoined (by decide) (by decide) noColon _

theorem splitCompressed (left right : List UInt16) :
    (fmtSubslice left ++ ':' :: ':' :: fmtSubslice right).splitOn ':' = hex left ++ [] :: hex right := by
  rw [List.splitOn_append_cons_self,splitFmt,← List.nil_append (':' :: fmtSubslice right),
    List.splitOn_append_cons_self,splitFmt]
  rfl

theorem hexInjective {xs ys : List UInt16} (same : hex xs = hex ys) : xs = ys :=
  mapToNat (tokensInjective (by decide) (by decide) same)

theorem hexNonempty {xs : List UInt16} (some : xs ≠ []) : ∀ t ∈ hex xs, t ≠ [] := by
  match xs with
  | x :: xs =>
    intro t member
    obtain ⟨n,_,rfl⟩ := List.mem_map.mp member
    exact Nat.toDigits_ne_nil

/- The tokens before the first empty one are the segments on the left. -/
theorem leftTokens (left : List UInt16) (rest : List (List Char)) :
    (hex left ++ [] :: rest).takeWhile (fun t => t ≠ []) =
      (left.map UInt16.toNat).map (Nat.toDigits 16) := by
  match left with
  | [] => rfl
  | x :: xs =>
    rw [List.takeWhile_append_of_pos fun t member => by simpa using hexNonempty (by simp) t member]
    simp [hex,tokens]

theorem compressedInjective {left right left' right' : List UInt16}
    (same : fmtSubslice left ++ ':' :: ':' :: fmtSubslice right =
      fmtSubslice left' ++ ':' :: ':' :: fmtSubslice right') : left = left' ∧ right = right' := by
  have split := congrArg (List.splitOn ':') same
  rw [splitCompressed,splitCompressed] at split
  have front := congrArg (List.takeWhile fun t => t ≠ []) split
  rw [leftTokens,leftTokens] at front
  have digits : Function.Injective (Nat.toDigits 16) := fun _ _ => digitsInjective (by decide) (by decide)
  have one := mapToNat (List.map_injective_iff.mpr digits front)
  subst one
  obtain ⟨_,back⟩ := List.cons.inj (List.append_cancel_left split)
  exact ⟨rfl,hexInjective back⟩

theorem fullNotCompressed {segments left right : List UInt16} (some : segments ≠ []) :
    fmtSubslice segments ≠ fmtSubslice left ++ ':' :: ':' :: fmtSubslice right := by
  intro same
  have split := congrArg (List.splitOn ':') same
  rw [splitFmt,splitCompressed] at split
  exact hexNonempty some [] (by rw [split]; simp) rfl

theorem dotInV4 (a b c d : Nat) : '.' ∈ v4Chars a b c d := by
  simp [v4Chars,joined,List.intercalate_cons_cons]

theorem dotNotInFmt (xs : List UInt16) : '.' ∉ fmtSubslice xs :=
  notInJoined (by decide) (by decide) noDot (by decide) _

theorem colonNotInV4 (a b c d : Nat) : ':' ∉ v4Chars a b c d :=
  notInJoined (by decide) (by decide) noColon (by decide) _

theorem colonInV6 {segments chars} (shape : Shape segments chars) (eight : segments.length = 8) :
    ':' ∈ chars := by
  cases shape with
  | mapped g h same => simp
  | compressed left right same => simp
  | full =>
    by_contra none
    have split := List.splitOn_eq_singleton none
    rw [splitFmt] at split
    match segments,eight with
    | a :: b :: rest,_ => simp [hex,tokens] at split

theorem halvesInjective {g g' : UInt16} (high : g.toNat / 256 = g'.toNat / 256)
    (low : g.toNat % 256 = g'.toNat % 256) : g = g' := UInt16.toNat_inj.mp (by omega)

theorem v6Injective {xs ys : List UInt16} {chars : List Char} (left : Shape xs chars) (right : Shape ys chars)
    (eight : xs.length = 8) (eight' : ys.length = 8) : xs = ys := by
  generalize same : chars = chars' at right
  have some : xs ≠ [] := fun none => by simp [none] at eight
  have some' : ys ≠ [] := fun none => by simp [none] at eight'
  cases left with
  | mapped g h shape =>
    have dot := dotInV4 (g.toNat / 256) (g.toNat % 256) (h.toNat / 256) (h.toNat % 256)
    cases right with
    | mapped g' h' shape' =>
      have halves := joinedInjective (by decide) (by decide) noDot (List.append_cancel_left same)
      simp only [List.cons.injEq,and_true] at halves
      obtain ⟨gHigh,gLow,hHigh,hLow⟩ := halves
      rw [shape,shape',halvesInjective gHigh gLow,halvesInjective hHigh hLow]
    | compressed front back shape' =>
      have inside := List.mem_append_right [':',':','f','f','f','f',':'] dot
      rw [same] at inside
      simp [dotNotInFmt] at inside
    | full =>
      have inside := List.mem_append_right [':',':','f','f','f','f',':'] dot
      rw [same] at inside
      exact absurd inside (dotNotInFmt _)
  | compressed front back shape =>
    cases right with
    | mapped g h shape' =>
      have dot := dotInV4 (g.toNat / 256) (g.toNat % 256) (h.toNat / 256) (h.toNat % 256)
      have inside := List.mem_append_right [':',':','f','f','f','f',':'] dot
      rw [← same] at inside
      simp [dotNotInFmt] at inside
    | compressed front' back' shape' =>
      obtain ⟨rfl,rfl⟩ := compressedInjective same
      exact shape.trans shape'.symm
    | full => exact absurd same.symm (fullNotCompressed some')
  | full =>
    cases right with
    | mapped g h shape' =>
      have dot := dotInV4 (g.toNat / 256) (g.toNat % 256) (h.toNat / 256) (h.toNat % 256)
      have inside := List.mem_append_right [':',':','f','f','f','f',':'] dot
      rw [← same] at inside
      exact absurd inside (dotNotInFmt _)
    | compressed front back shape' => exact absurd same (fullNotCompressed some)
    | full => exact hexInjective (by rw [← splitFmt,same,splitFmt])

theorem textInjective {a b : IpAddr} (same : a.text = b.text) : a = b := by
  have chars : a.chars = b.chars := String.ofList_injective same
  cases a with
  | v4 p q r t =>
    cases b with
    | v4 p' q' r' t' =>
      have octets := joinedInjective (by decide) (by decide) noDot chars
      simp only [List.cons.injEq,UInt8.toNat_inj,and_true] at octets
      obtain ⟨rfl,rfl,rfl,rfl⟩ := octets
      rfl
    | v6 segments =>
      have colon := colonInV6 (v6Shape segments.eight) segments.eight
      have apart := colonNotInV4 p.toNat q.toNat r.toNat t.toNat
      exact absurd (by rw [show v4Chars _ _ _ _ = _ from chars]; exact colon) apart
  | v6 segments =>
    cases b with
    | v4 p q r t =>
      have colon := colonInV6 (v6Shape segments.eight) segments.eight
      have apart := colonNotInV4 p.toNat q.toNat r.toNat t.toNat
      exact absurd (by rw [show v4Chars _ _ _ _ = _ from chars.symm]; exact colon) apart
    | v6 segments' =>
      have shape' := v6Shape segments'.eight
      rw [show v6Chars segments'.list = v6Chars segments.list from chars.symm] at shape'
      have list := v6Injective (v6Shape segments.eight) shape' segments.eight segments'.eight
      obtain ⟨xs,_⟩ := segments
      obtain ⟨ys,_⟩ := segments'
      cases list
      rfl

example : (IpAddr.v4 192 0 2 1).text = "192.0.2.1" := by decide
example : (IpAddr.v6 ⟨[0x2001,0xdb8,0,0,1,0,0,1],rfl⟩).text = "2001:db8::1:0:0:1" := by decide
example : (IpAddr.v6 ⟨[0,0,0,0,0,0xffff,0xc000,0x201],rfl⟩).text = "::ffff:192.0.2.1" := by decide

end OpenuuServer.IpText
