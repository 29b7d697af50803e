import Mathlib.Data.List.Pairwise
import Mathlib.Data.List.Induction

/-! Maps whose entries count for a limited time. A write may drop what no longer counts, a read
passes over it; read through such a map, nothing but the latest write of a key can be seen, and
that one exactly while it is young. -/
namespace OpenuuServer.ExpiringMap

section Maps
variable {κ ν M : Type} [DecidableEq κ]

def young (ttl now : Nat) (entry : ν × Nat) : Bool := decide (now - entry.2 < ttl)

/- The one law: a write sets its own key and keeps of the others at least what still counts, and
nothing that does not. -/
structure Expiring (κ ν M : Type) [DecidableEq κ] (ttl : Nat) where
  lookup : κ → M → Option (ν × Nat)
  write : Nat → κ → ν → M → M
  after : ∀ now k v m j, lookup j (write now k v m) =
    if j = k then some (v,now) else (lookup j m).filter (young ttl now)

def Expiring.read {ttl : Nat} (map : Expiring κ ν M ttl) (now : Nat) (k : κ) (m : M) : Option ν :=
  ((map.lookup k m).filter (young ttl now)).map Prod.fst

structure Write (κ ν : Type) where
  time : Nat
  key : κ
  value : ν

def latest (k : κ) (writes : List (Write κ ν)) : Option (Write κ ν) := writes.reverse.find? fun x => x.key = k

theorem latestLast (k : κ) (writes : List (Write κ ν)) (x : Write κ ν) :
    latest k (writes ++ [x]) = if x.key = k then some x else latest k writes := by
  unfold latest
  rw [List.reverse_append,List.reverse_singleton,List.singleton_append,List.find?_cons]
  by_cases same : x.key = k <;> simp [same]

/- What was too old earlier is too old now. -/
theorem filterTwice {ttl earlier now : Nat} (later : earlier ≤ now) (found : Option (ν × Nat)) :
    (found.filter (young ttl earlier)).filter (young ttl now) = found.filter (young ttl now) := by
  refine Option.ext fun entry => ?_
  simp only [← Option.mem_def,Option.mem_filter_iff,young,decide_eq_true_eq]
  constructor
  · rintro ⟨⟨member,_⟩,fresh⟩
    exact ⟨member,fresh⟩
  · rintro ⟨member,fresh⟩
    exact ⟨⟨member,by omega⟩,fresh⟩

variable {ttl : Nat} (map : Expiring κ ν M ttl)

def written (writes : List (Write κ ν)) (m : M) : M := writes.foldl (fun m x => map.write x.time x.key x.value m) m

/- The map is as good as the whole list of writes: a read finds the latest write of its key. -/
theorem readLatest {m : M} (empty : ∀ k, map.lookup k m = none) {writes : List (Write κ ν)}
    (sorted : writes.Pairwise fun a b => a.time ≤ b.time) {now : Nat} (past : ∀ x ∈ writes, x.time ≤ now) (k : κ) :
    map.read now k (written map writes m) =
      ((latest k writes).filter fun x => decide (now - x.time < ttl)).map Write.value := by
  suffices all : ∀ now, (∀ x ∈ writes, x.time ≤ now) → (map.lookup k (written map writes m)).filter (young ttl now) =
      ((latest k writes).map fun x => (x.value,x.time)).filter (young ttl now) by
    rw [Expiring.read,all now past]
    cases latest k writes with
    | none => rfl
    | some x => by_cases fresh : now - x.time < ttl <;> simp [young,Option.filter,fresh]
  clear past now
  induction writes using List.reverseRecOn with
  | nil =>
    intro now _
    simp [written,latest,empty]
  | append_singleton writes x ih =>
    intro now past
    obtain ⟨before,-,order⟩ := List.pairwise_append.mp sorted
    have last : written map (writes ++ [x]) m = map.write x.time x.key x.value (written map writes m) := by simp [written]
    rw [last,map.after,latestLast]
    by_cases same : x.key = k
    · rw [if_pos same.symm,if_pos same]
      rfl
    · rw [if_neg fun h => same h.symm,if_neg same,filterTwice (past x (by simp))]
      exact ih before now fun y member => past y (List.mem_append_left _ member)

end Maps
end OpenuuServer.ExpiringMap
