import Mathlib.Data.List.Induction
import Mathlib.Tactic.Common

/-! Rate limits by fixed windows. A window opens with a request that comes when none is open and is
over after a fixed time; it lets a number of requests through and counts them all. -/
namespace OpenuuServer.FixedWindow

structure Window where
  since : Nat
  count : Nat
  deriving DecidableEq

def Window.current (width now : Nat) (w : Window) : Bool := now - w.since < width

/- The window of a request, the request counted. -/
def joined (width : Nat) (w : Option Window) (now : Nat) : Window :=
  match w.filter (·.current width now) with
  | some w => ⟨w.since,w.count + 1⟩
  | none => ⟨now,1⟩

/- The last window that requests at these times opened. -/
def window (width : Nat) (times : List Nat) : Option Window := times.foldl (fun w now => some (joined width w now)) none

@[simp] theorem windowLast (width : Nat) (times : List Nat) (now : Nat) :
    window width (times ++ [now]) = some (joined width (window width times) now) := by simp [window]

/- A request after those at `times` is let through. -/
def grants (width limit : Nat) (times : List Nat) (now : Nat) : Bool := (joined width (window width times) now).count ≤ limit

theorem joinedWithin {width now : Nat} {w : Window} (within : w.current width now = true) :
    joined width (some w) now = ⟨w.since,w.count + 1⟩ := by rw [joined,Option.filter_some,if_pos within]

theorem joinedNext {width now : Nat} {w : Window} (past : w.current width now = false) : joined width (some w) now = ⟨now,1⟩ := by
  rw [joined,Option.filter_some,if_neg (Bool.eq_false_iff.mp past)]

theorem grantsIff {width limit : Nat} (room : 0 < limit) (times : List Nat) (now : Nat) : grants width limit times now = true ↔
    ∀ w, window width times = some w → w.current width now = true → w.count < limit := by
  rw [grants,decide_eq_true_eq]
  cases window width times with
  | none => exact ⟨fun _ w wrong => (by cases wrong),fun _ => room⟩
  | some w =>
    cases within : w.current width now with
    | true =>
      rw [joinedWithin within]
      constructor
      · intro low v same _
        cases same
        exact low
      · exact fun all => all w rfl within
    | false =>
      rw [joinedNext within]
      constructor
      · intro _ v same here
        cases same
        cases within.symm.trans here
      · exact fun _ => room

def advance (width limit : Nat) (g : Option Window × List Nat) (now : Nat) : Option Window × List Nat :=
  let w := joined width g.1 now
  (some w,if w.count ≤ limit then g.2 ++ [now] else g.2)

/- The times of those among the requests that are let through. -/
def granted (width limit : Nat) (times : List Nat) : List Nat := (times.foldl (advance width limit) (none,[])).2

theorem advanced (width limit : Nat) (times : List Nat) :
    times.foldl (advance width limit) (none,[]) = (window width times,granted width limit times) := by
  induction times using List.reverseRecOn with
  | nil => rfl
  | append_singleton times now ih =>
    have last := congrArg Prod.fst ih
    refine Prod.ext ?_ rfl
    rw [windowLast,List.foldl_append,List.foldl_cons,List.foldl_nil,advance,last]

theorem grantedLast (width limit : Nat) (times : List Nat) (now : Nat) : granted width limit (times ++ [now]) =
    if grants width limit times now then granted width limit times ++ [now] else granted width limit times := by
  rw [granted,List.foldl_append,advanced,List.foldl_cons,List.foldl_nil,advance,grants]
  simp only [decide_eq_true_eq]

section Bound

theorem countCovered {p q r : Nat → Bool} (covers : ∀ x, p x = true → q x = true ∨ r x = true) (xs : List Nat) :
    xs.countP p ≤ xs.countP q + xs.countP r := by
  induction xs with
  | nil => simp
  | cons x xs ih =>
    simp only [List.countP_cons]
    have here : (if p x = true then 1 else 0) ≤ (if q x = true then 1 else 0) + (if r x = true then 1 else 0) := by
      cases counts : p x with
      | false => exact Nat.zero_le _
      | true => rcases covers x counts with yes | yes <;> simp [yes]
    omega

theorem countMissing {p q : Nat → Bool} {xs : List Nat} {x : Nat} (member : x ∈ xs) (out : p x = false) (inside : q x = true)
    (covers : ∀ y, p y = true → q y = true) : xs.countP p + 1 ≤ xs.countP q := by
  induction xs with
  | nil => cases member
  | cons y ys ih =>
    simp only [List.countP_cons]
    rcases List.mem_cons.mp member with rfl | later
    · have rest := List.countP_mono_left (l := ys) fun z _ => covers z
      simp only [out,inside,Bool.false_eq_true,if_false,if_true]
      omega
    · have rest := ih later
      have here : (if p y = true then 1 else 0) ≤ (if q y = true then 1 else 0) := by
        cases counts : p y with
        | false => exact Nat.zero_le _
        | true => simp [covers y counts]
      omega

/- What is known of the requests let through so far when the last window is `w`. -/
structure Kept (width limit : Nat) (w : Window) (xs : List Nat) : Prop where
  here : xs.countP (fun x => decide (w.since ≤ x)) = min w.count limit
  opener : w.since ∈ xs
  recent : ∀ x ∈ xs, x < w.since + width
  earlier : ∀ s, w.since < s + width → xs.countP (fun x => decide (s ≤ x ∧ x < w.since)) + 1 ≤ limit
  bound : ∀ s, xs.countP (fun x => decide (s ≤ x ∧ x < s + width)) + 1 ≤ 2 * limit

theorem keptFirst {width limit : Nat} (room : 0 < limit) (wide : 0 < width) (now : Nat) : Kept width limit ⟨now,1⟩ [now] := by
  refine ⟨?_,.head _,?_,?_,?_⟩
  · simp
    omega
  · simpa using wide
  · intro s _
    simp
    omega
  · intro s
    have := List.countP_le_length (p := fun x => decide (s ≤ x ∧ x < s + width)) (l := [now])
    rw [List.length_singleton] at this
    omega

/- The next request of the window. -/
theorem keptWithin {width limit : Nat} {w : Window} {xs : List Nat} (kept : Kept width limit w xs) {now : Nat}
    (after : w.since ≤ now) (within : now < w.since + width) :
    Kept width limit ⟨w.since,w.count + 1⟩ (if w.count + 1 ≤ limit then xs ++ [now] else xs) := by
  have here := kept.here
  split
  · rename_i low
    have more : (xs ++ [now]).countP (fun x => decide (w.since ≤ x)) = min (w.count + 1) limit := by
      rw [List.countP_append,here]
      simp [after]
      omega
    have old : ∀ s, (xs ++ [now]).countP (fun x => decide (s ≤ x ∧ x < w.since)) =
        xs.countP fun x => decide (s ≤ x ∧ x < w.since) := by
      intro s
      rw [List.countP_append]
      simp
      omega
    refine ⟨more,List.mem_append_left _ kept.opener,fun x member => ?_,
      fun s near => by rw [old]; exact kept.earlier s near,fun s => ?_⟩
    · rcases List.mem_append.mp member with before | last
      · exact kept.recent x before
      · rw [List.mem_singleton.mp last]
        exact within
    · by_cases near : w.since < s + width
      · -- what the stretch has of the windows before, and what it can have of this one
        have covered := countCovered (p := fun x => decide (s ≤ x ∧ x < s + width)) (q := fun x => decide (s ≤ x ∧ x < w.since))
          (r := fun x => decide (w.since ≤ x)) (fun x => by simp; omega) (xs ++ [now])
        have earlier := kept.earlier s near
        rw [old,more] at covered
        omega
      · rw [List.countP_append]
        have bound := kept.bound s
        have out : [now].countP (fun x => decide (s ≤ x ∧ x < s + width)) = 0 := by simp; omega
        omega
  · rename_i full
    exact ⟨here.trans (by simp; omega),kept.opener,kept.recent,kept.earlier,kept.bound⟩

/- A request that opens the next window. -/
theorem keptNext {width limit : Nat} {w : Window} {xs : List Nat} (kept : Kept width limit w xs) (room : 0 < limit)
    (wide : 0 < width) {now : Nat} (after : w.since + width ≤ now) : Kept width limit ⟨now,1⟩ (xs ++ [now]) := by
  have past : ∀ x ∈ xs, x < now := fun x member => Nat.lt_of_lt_of_le (kept.recent x member) after
  have none : xs.countP (fun x => decide (now ≤ x)) = 0 := by
    rw [List.countP_eq_zero]
    intro x member
    simpa using past x member
  -- the request that opened the window before lies outside of a stretch that reaches this one
  have late : ∀ s, w.since < s → xs.countP (fun x => decide (s ≤ x)) + 1 ≤ limit := by
    intro s near
    have missing := countMissing (p := fun x => decide (s ≤ x)) (q := fun x => decide (w.since ≤ x)) kept.opener
      (by simpa using near) (by simp) fun x => by simp; omega
    rw [kept.here] at missing
    omega
  have earlier : ∀ s, now < s + width → (xs ++ [now]).countP (fun x => decide (s ≤ x ∧ x < now)) + 1 ≤ limit := by
    intro s near
    have fewer := List.countP_mono_left (l := xs) (p := fun x => decide (s ≤ x ∧ x < now)) (q := fun x => decide (s ≤ x))
      fun x _ => by simp; omega
    have := late s (by omega)
    rw [List.countP_append]
    simp at fewer ⊢
    omega
  refine ⟨?_,List.mem_append_right _ (.head _),fun x member => ?_,earlier,fun s => ?_⟩
  · rw [List.countP_append,none]
    simp
    omega
  · rcases List.mem_append.mp member with before | last
    · exact Nat.lt_of_lt_of_le (past x before) (Nat.le_add_right _ _)
    · rw [List.mem_singleton.mp last]
      exact Nat.lt_add_of_pos_right wide
  · by_cases near : now < s + width
    · have few := earlier s near
      have covered := countCovered (p := fun x => decide (s ≤ x ∧ x < s + width)) (q := fun x => decide (s ≤ x ∧ x < now))
        (r := fun x => decide (now ≤ x)) (fun x => by simp; omega) (xs ++ [now])
      have one : (xs ++ [now]).countP (fun x => decide (now ≤ x)) = 1 := by rw [List.countP_append,none]; simp
      omega
    · have bound := kept.bound s
      have out : [now].countP (fun x => decide (s ≤ x ∧ x < s + width)) = 0 := by simp; omega
      rw [List.countP_append,out]
      exact bound

theorem keptAll {width limit : Nat} (room : 0 < limit) (wide : 0 < width) {times : List Nat} (ordered : times.Pairwise (· ≤ ·)) :
    ∀ w, window width times = some w → Kept width limit w (granted width limit times) ∧ ∃ t ∈ times, w.since ≤ t := by
  induction times using List.reverseRecOn with
  | nil => intro w wrong; cases wrong
  | append_singleton times now ih =>
    intro w last
    rw [windowLast,Option.some_inj] at last
    subst last
    obtain ⟨before,-,past⟩ := List.pairwise_append.mp ordered
    cases old : window width times with
    | none =>
      have empty : times = [] := by
        cases times using List.reverseRecOn with
        | nil => rfl
        | append_singleton times now => simp at old
      subst empty
      have first : granted width limit [now] = [now] := if_pos room
      exact ⟨by rw [List.nil_append,first]; exact keptFirst room wide now,now,.head _,Nat.le_refl _⟩
    | some v =>
      obtain ⟨kept,t,member,reached⟩ := ih before v old
      have after : v.since ≤ now := Nat.le_trans reached (past t member now (.head _))
      rw [grantedLast,grants,old]
      cases within : v.current width now with
      | true =>
        rw [joinedWithin within]
        have inside : now < v.since + width := by
          have := of_decide_eq_true within
          omega
        simp only [decide_eq_true_eq]
        exact ⟨keptWithin kept after inside,now,by simp,after⟩
      | false =>
        rw [joinedNext within]
        have past' : v.since + width ≤ now := by
          have := of_decide_eq_false within
          omega
        rw [if_pos (decide_eq_true (Nat.one_le_of_lt room))]
        exact ⟨keptNext kept room wide past',now,by simp,Nat.le_refl _⟩

/- No stretch of time as long as a window has more than two windows' requests less one let through. -/
theorem grantedBound {width limit : Nat} (room : 0 < limit) (wide : 0 < width) {times : List Nat}
    (ordered : times.Pairwise (· ≤ ·)) (s : Nat) :
    (granted width limit times).countP (fun x => decide (s ≤ x ∧ x < s + width)) ≤ 2 * limit - 1 := by
  cases times using List.reverseRecOn with
  | nil => exact Nat.zero_le _
  | append_singleton times now =>
    have := (keptAll room wide ordered _ (windowLast width times now)).1.bound s
    omega

end Bound
end OpenuuServer.FixedWindow
