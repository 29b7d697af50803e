import Mathlib.Data.List.Basic
import Mathlib.Data.Nat.Notation

/-! A log of timed entries that leaves out what one of its last entries has just said. -/
namespace OpenuuServer.RecentLog

section Logs
variable {E K : Type} (time : E → ℕ) (key : E → K) (window age : ℕ)

/- Entries about the same thing that lie close together in the log lie apart in time. -/
structure Kept (now : ℕ) (log : List E) : Prop where
  ordered : log.Pairwise fun x y => time x ≤ time y
  past : ∀ x ∈ log, time x ≤ now
  apart : ∀ (i j : ℕ) x y, log[i]? = some x → log[j]? = some y → i < j → j ≤ i + window → key x = key y →
    time x + age ≤ time y

theorem keptNil (now : ℕ) : Kept time key window age now [] := ⟨.nil,by simp,by simp⟩

variable {time key window age} in
theorem keptLater {now now' : ℕ} {log : List E} (kept : Kept time key window age now log) (less : now ≤ now') :
    Kept time key window age now' log := ⟨kept.ordered,fun x member => Nat.le_trans (kept.past x member) less,kept.apart⟩

variable [DecidableEq K]

/- Of the last entries the latest about the same thing decides. -/
def said (now : ℕ) (k : K) (log : List E) : Bool :=
  match (log.reverse.take window).find? fun x => key x = k with
  | some x => decide (now - time x < age)
  | none => false

def note (now : ℕ) (e : E) (log : List E) : List E := if said time key window age now (key e) log then log else log ++ [e]

variable {time key window age}

theorem recentMember {log : List E} {i : ℕ} {x : E} (found : log[i]? = some x) (recent : log.length ≤ i + window) :
    x ∈ log.reverse.take window := by
  obtain ⟨bound,_⟩ := List.getElem?_eq_some_iff.mp found
  have turned : log.reverse[log.length - 1 - i]? = some x := by
    rw [List.getElem?_reverse (by omega),show log.length - 1 - (log.length - 1 - i) = i by omega]
    exact found
  exact List.mem_of_getElem? (i := log.length - 1 - i) (by rw [List.getElem?_take_of_lt (by omega)]; exact turned)

/- The latest entry is the youngest: where it is too old, all are. -/
theorem unsaid {now : ℕ} {k : K} {log : List E} (kept : Kept time key window age now log)
    (silent : said time key window age now k log = false) {i : ℕ} {x : E} (found : log[i]? = some x)
    (recent : log.length ≤ i + window) (same : key x = k) : time x + age ≤ now := by
  have inside := recentMember found recent
  have sorted : (log.reverse.take window).Pairwise fun x y => time y ≤ time x :=
    (List.pairwise_reverse.mpr kept.ordered).sublist (List.take_sublist _ _)
  unfold said at silent
  split at silent
  · rename_i y latest
    obtain ⟨_,before,after,split,other⟩ := List.find?_eq_some_iff_append.mp latest
    have old : time x ≤ time y := by
      rw [split] at inside sorted
      rcases List.mem_append.mp inside with early | late
      · exact absurd same (by simpa using other x early)
      · rcases List.mem_cons.mp late with rfl | behind
        · exact Nat.le_refl _
        · exact List.rel_of_pairwise_cons (List.pairwise_append.mp sorted).2.1 behind
    have past : time y ≤ now := by
      have member : y ∈ log.reverse.take window := by rw [split]; simp
      exact kept.past y (List.mem_reverse.mp (List.mem_of_mem_take member))
    have aged := of_decide_eq_false silent
    omega
  · rename_i nothing
    exact absurd same (by simpa using List.find?_eq_none.mp nothing x inside)

theorem keptNote {now : ℕ} {e : E} {log : List E} (kept : Kept time key window age now log) (current : time e = now) :
    Kept time key window age now (note time key window age now e log) := by
  unfold note
  split
  · exact kept
  · rename_i silent
    have silent := Bool.eq_false_iff.mpr silent
    refine ⟨List.pairwise_append.mpr ⟨kept.ordered,List.pairwise_singleton _ _,fun x member y last => ?_⟩,fun x member => ?_,
      fun i j x y found found' less near same => ?_⟩
    · cases List.mem_singleton.mp last
      exact Nat.le_trans (kept.past x member) (Nat.le_of_eq current.symm)
    · rcases List.mem_append.mp member with old | last
      · exact kept.past x old
      · cases List.mem_singleton.mp last
        exact Nat.le_of_eq current
    · have bound := (List.getElem?_eq_some_iff.mp found').1
      rw [List.length_append,List.length_singleton] at bound
      rw [List.getElem?_append_left (by omega)] at found
      rcases Nat.lt_or_eq_of_le (Nat.le_of_lt_succ bound) with low | rfl
      · rw [List.getElem?_append_left low] at found'
        exact kept.apart i j x y found found' less near same
      · rw [List.getElem?_concat_length] at found'
        cases Option.some.inj found'
        rw [current]
        exact unsaid kept silent found near same

theorem keptAll {now : ℕ} {e x : E} {log : List E} (member : x ∈ log) : x ∈ note time key window age now e log := by
  unfold note
  split
  · exact member
  · exact List.mem_append_left _ member

end Logs
end OpenuuServer.RecentLog
