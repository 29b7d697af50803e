import Mathlib.Data.List.Pairwise

/-! Tables of rows under uniqueness constraints. Two rows that clash cannot both be in
a table, so a primary key or a unique index is a property of the value itself. Deleting
and inserting report what a database reports: the rows affected or a violation. -/
namespace OpenuuServer.UniqueTable

structure Table (ρ : Type) (clash : ρ → ρ → Prop) where
  rows : List ρ
  unique : rows.Pairwise fun a b => ¬ clash a b

variable {ρ : Type} {clash : ρ → ρ → Prop}

instance : Membership ρ (Table ρ clash) := ⟨fun t r => r ∈ t.rows⟩

theorem memRows {t : Table ρ clash} {r : ρ} : r ∈ t ↔ r ∈ t.rows := Iff.rfl

def Table.empty : Table ρ clash := ⟨[],.nil⟩

@[simp] theorem notMemEmpty {r : ρ} : r ∉ (Table.empty : Table ρ clash) := List.not_mem_nil

theorem sameRow (symmetric : ∀ a b, clash a b → clash b a) {t : Table ρ clash} {a b : ρ}
    (left : a ∈ t) (right : b ∈ t) (together : clash a b) : a = b := by
  by_contra different
  have apart : Std.Symm fun a b => ¬ clash a b := ⟨fun a b h g => h (symmetric b a g)⟩
  exact t.unique.forall left right different together

def Table.insert [DecidableRel clash] (t : Table ρ clash) (r : ρ) : Option (Table ρ clash) :=
  if fresh : ∀ a ∈ t.rows, ¬ clash a r then
    some ⟨t.rows ++ [r],List.pairwise_append.mpr
      ⟨t.unique,List.pairwise_singleton _ _,by simpa using fresh⟩⟩
  else none

theorem memInsert [DecidableRel clash] {t t' : Table ρ clash} {r a : ρ} (h : t.insert r = some t') :
    a ∈ t' ↔ a ∈ t ∨ a = r := by
  unfold Table.insert at h
  split at h <;> try contradiction
  cases Option.some.inj h
  simp [memRows]

theorem insertIsSome [DecidableRel clash] {t : Table ρ clash} {r : ρ} :
    (t.insert r).isSome = true ↔ ∀ a ∈ t, ¬ clash a r := by
  simp only [Table.insert,memRows]
  split <;> rename_i h
  · simp only [Option.isSome_some,true_iff]
    exact h
  · simp only [Option.isSome_none,Bool.false_eq_true,false_iff]
    exact h

/- Inserting over a row in the way. -/
def Table.upsert [DecidableRel clash] (t : Table ρ clash) (r : ρ) : Table ρ clash :=
  ⟨(t.rows.filter fun a => ¬ clash a r) ++ [r],List.pairwise_append.mpr
    ⟨t.unique.sublist List.filter_sublist,List.pairwise_singleton _ _,by simp⟩⟩

@[simp] theorem memUpsert [DecidableRel clash] {t : Table ρ clash} {r a : ρ} :
    a ∈ t.upsert r ↔ a ∈ t ∧ ¬ clash a r ∨ a = r := by
  simp [memRows,Table.upsert]

def Table.delete (t : Table ρ clash) (p : ρ → Bool) : Table ρ clash :=
  ⟨t.rows.filter fun r => !p r,t.unique.sublist List.filter_sublist⟩

@[simp] theorem memDelete {t : Table ρ clash} {p : ρ → Bool} {a : ρ} :
    a ∈ t.delete p ↔ a ∈ t ∧ p a = false := by
  simp [memRows,Table.delete]

theorem deleteSame {t : Table ρ clash} {p : ρ → Bool} :
    t.delete p = t ↔ ∀ a ∈ t, p a = false := by
  rw [Table.delete]
  cases t with
  | mk rows unique => simp [memRows]

def Table.affected (t : Table ρ clash) (p : ρ → Bool) : Nat := t.rows.countP p

theorem affectedPos {t : Table ρ clash} {p : ρ → Bool} :
    0 < t.affected p ↔ ∃ a ∈ t, p a = true := List.countP_pos_iff

theorem affectedZero {t : Table ρ clash} {p : ρ → Bool} :
    t.affected p = 0 ↔ ∀ a ∈ t, p a = false := by
  simp [Table.affected,List.countP_eq_zero,memRows]

/- A condition that fixes the key is met by one row at most. -/
theorem affectedAtMostOne {t : Table ρ clash} {p : ρ → Bool} (together : ∀ a b, p a = true → p b = true → clash a b) :
    t.affected p ≤ 1 := by
  have apart := t.unique.sublist (List.filter_sublist (p := p))
  rw [Table.affected,List.countP_eq_length_filter]
  match chosen : t.rows.filter p with
  | [] | [_] => simp
  | a :: b :: rest =>
    rw [chosen] at apart
    have left : a ∈ t.rows.filter p := by simp [chosen]
    have right : b ∈ t.rows.filter p := by simp [chosen]
    exact absurd (together a b (List.mem_filter.mp left).2 (List.mem_filter.mp right).2)
      (List.rel_of_pairwise_cons apart List.mem_cons_self)

/- An update of columns that no constraint looks at. -/
def Table.amend (t : Table ρ clash) (p : ρ → Bool) (f : ρ → ρ)
    (keep : ∀ a b a' b', a' = a ∨ a' = f a → b' = b ∨ b' = f b → clash a' b' → clash a b) :
    Table ρ clash :=
  ⟨t.rows.map fun r => if p r then f r else r,
    t.unique.map _ fun a b apart together =>
      apart (keep a b _ _ (by split <;> simp) (by split <;> simp) together)⟩

theorem keepKey {κ : Type} (key : ρ → κ) {f : ρ → ρ} (same : ∀ a, key (f a) = key a) :
    ∀ a b a' b', a' = a ∨ a' = f a → b' = b ∨ b' = f b → key a' = key b' → key a = key b := by
  rintro a b _ _ (rfl | rfl) (rfl | rfl) <;> simp [same]

theorem memAmend {t : Table ρ clash} {p : ρ → Bool} {f : ρ → ρ} {keep} {a : ρ} :
    a ∈ t.amend p f keep ↔ ∃ r ∈ t, (if p r then f r else r) = a := by
  simp only [memRows,Table.amend,List.mem_map]

theorem amendSame {t : Table ρ clash} {p : ρ → Bool} {f : ρ → ρ} {keep} :
    t.amend p f keep = t ↔ ∀ a ∈ t, p a = true → f a = a := by
  cases t with
  | mk rows unique =>
    have same : rows.map (fun r => if p r then f r else r) = rows ↔ ∀ a ∈ rows, (if p a then f a else a) = a := by
      constructor
      · intro kept
        exact List.map_inj_left.mp (kept.trans (List.map_id rows).symm)
      · intro kept
        exact (List.map_inj_left.mpr kept).trans (List.map_id rows)
    rw [Table.amend,Table.mk.injEq,same]
    refine forall₂_congr fun a _ => ?_
    by_cases chosen : p a = true <;> simp [chosen]

/- An update that may run into a constraint: then nothing changes. -/
def Table.update [DecidableRel clash] (t : Table ρ clash) (p : ρ → Bool) (f : ρ → ρ) :
    Option (Table ρ clash) :=
  if unique : (t.rows.map fun r => if p r then f r else r).Pairwise fun a b => ¬ clash a b then
    some ⟨_,unique⟩
  else none

theorem memUpdate [DecidableRel clash] {t t' : Table ρ clash} {p : ρ → Bool} {f : ρ → ρ} {a : ρ}
    (h : t.update p f = some t') : a ∈ t' ↔ ∃ r ∈ t, (if p r then f r else r) = a := by
  unfold Table.update at h
  split at h <;> try contradiction
  cases Option.some.inj h
  simp only [memRows,List.mem_map]

theorem updateSame [DecidableRel clash] {t : Table ρ clash} {p : ρ → Bool} {f : ρ → ρ}
    (keep : ∀ a ∈ t, ∀ b ∈ t, clash (if p a then f a else a) (if p b then f b else b) → clash a b) :
    ∃ t', t.update p f = some t' := by
  have unique : (t.rows.map fun r => if p r then f r else r).Pairwise fun a b => ¬ clash a b := by
    rw [List.pairwise_map]
    exact t.unique.imp_of_mem fun left right apart together => apart (keep _ left _ right together)
  exact ⟨_,by rw [Table.update,dif_pos unique]⟩

end OpenuuServer.UniqueTable
