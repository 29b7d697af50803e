import OpenuuServer.AtomicProgram

/-! Operations that leave a program with something to do. Whoever incurs a debt frees it before an
operation that must not come first, or before the program ends; along a path what is left of a
program still honours its debts. -/
namespace OpenuuServer.Obligations
open AtomicProgram

section Programs
variable {Op : Type} {Resp : Op → Type} {α β : Type}

/- `fits` are the responses that are possible while the debt stands, `mayEnd` says whether a program
may end with it. -/
structure Debt (Op : Type) (Resp : Op → Type) where
  incurs : Op → Prop
  frees : Op → Prop
  breaks : Op → Prop
  fits : Did Op Resp → Prop
  mayEnd : Prop

variable (debt : Debt Op Resp)

def Debt.Owed : Prog Op Resp α → Prop
  | .ret _ => debt.mayEnd
  | .op o next => debt.frees o ∨ ¬ debt.breaks o ∧ ∀ r, debt.fits ⟨o,r⟩ → Debt.Owed (next r)

def Debt.Honoured : Prog Op Resp α → Prop
  | .ret _ => True
  | .op o next => (debt.incurs o → ∀ r, debt.Owed (next r)) ∧ ∀ r, Debt.Honoured (next r)

variable {debt}

theorem owedBind {p : Prog Op Resp α} {k : α → Prog Op Resp β} (safe : p.Every fun o => ¬ debt.breaks o)
    (rest : ∀ value, debt.Owed (k value)) : debt.Owed (p >>= k) := by
  induction p with
  | ret value => exact rest value
  | op o next ih => exact .inr ⟨safe.1,fun r _ => ih r (safe.2 r)⟩

theorem owedSafe (may : debt.mayEnd) {p : Prog Op Resp α} (safe : p.Every fun o => ¬ debt.breaks o) : debt.Owed p := by
  induction p with
  | ret value => exact may
  | op o next ih => exact .inr ⟨safe.1,fun r _ => ih r (safe.2 r)⟩

theorem owedIte {c : Prop} [Decidable c] {x y : Prog Op Resp α} (left : debt.Owed x) (right : debt.Owed y) :
    debt.Owed (if c then x else y) := by
  split
  · exact left
  · exact right

theorem honouredIte {c : Prop} [Decidable c] {x y : Prog Op Resp α} (left : debt.Honoured x) (right : debt.Honoured y) :
    debt.Honoured (if c then x else y) := by
  split
  · exact left
  · exact right

theorem honouredFree {p : Prog Op Resp α} (free : p.Every fun o => ¬ debt.incurs o) : debt.Honoured p := by
  induction p with
  | ret value => trivial
  | op o next ih => exact ⟨fun incurs => absurd incurs free.1,fun r => ih r (free.2 r)⟩

theorem honouredSafe (may : debt.mayEnd) {p : Prog Op Resp α} (safe : p.Every fun o => ¬ debt.breaks o) : debt.Honoured p := by
  induction p with
  | ret value => trivial
  | op o next ih => exact ⟨fun _ r => owedSafe may (safe.2 r),fun r => ih r (safe.2 r)⟩

/- What comes next takes the debts of what came first upon itself. -/
theorem honouredBind {p : Prog Op Resp α} {k : α → Prog Op Resp β} (safe : p.Every fun o => ¬ debt.breaks o)
    (owed : ∀ value, debt.Owed (k value)) (rest : ∀ value, debt.Honoured (k value)) : debt.Honoured (p >>= k) := by
  induction p with
  | ret value => exact rest value
  | op o next ih => exact ⟨fun _ r => owedBind (safe.2 r) owed,fun r => ih r (safe.2 r)⟩

theorem honouredOnPath {p q : Prog Op Resp α} {dids} (path : Path p dids q) (honoured : debt.Honoured p) :
    debt.Honoured q := by
  induction path with
  | here => exact honoured
  | next rest ih => exact ih (honoured.2 _)

end Programs

section Runs
variable {Op : Type} {Resp : Op → Type} {Call Env σ α κ : Type} {m : Machine Op Resp Call Env σ α}
variable {ok : Pool Op Resp Call σ α → Act Call Env → Prop} {s : σ} {w : Pool Op Resp Call σ α}
variable {debt : κ → Debt Op Resp}

end Runs
end OpenuuServer.Obligations
