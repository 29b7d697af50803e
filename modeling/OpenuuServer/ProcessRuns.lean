import Mathlib.Tactic.Common

/-! Programs of one process over a state. A step gives a value or ends the process; the state that was
reached stays visible either way. -/
namespace OpenuuServer.ProcessRuns

inductive Ending
  | bailed
  | exited
  | panicked
  deriving DecidableEq

def Process (σ α : Type) : Type := σ → Except Ending α × σ

namespace Process
variable {σ α β : Type}

def value (a : α) : Process σ α := fun s => (.ok a,s)

def andThen (m : Process σ α) (f : α → Process σ β) : Process σ β := fun s =>
  match m s with
  | (.ok a,s') => f a s'
  | (.error e,s') => (.error e,s')

instance : Monad (Process σ) where
  pure := value
  bind := andThen

def finish (e : Ending) : Process σ α := fun s => (.error e,s)

def update (f : σ → σ) : Process σ Unit := fun s => (.ok (),f s)

/- `?` on a value that is there or not. -/
def orBail (o : Option α) : Process σ α :=
  match o with
  | some a => value a
  | none => finish .bailed

def each (f : β → Process σ Unit) : List β → Process σ Unit
  | [] => value ()
  | b :: bs => andThen (f b) fun _ => each f bs

end Process
open Process

section Rules
variable {σ α β : Type} {P P' E E' : σ → Prop} {Q Q' : α → σ → Prop} {R : β → σ → Prop}

/- From every state of `P` the process gives a value with `Q` or ends in a state of `E`. -/
def Leads (P : σ → Prop) (m : Process σ α) (Q : α → σ → Prop) (E : σ → Prop) : Prop :=
  ∀ s, P s → (∀ a s', m s = (.ok a,s') → Q a s') ∧ ∀ e s', m s = (.error e,s') → E s'

theorem leadsValue {a : α} (after : ∀ s, P s → Q a s) : Leads P (value a) Q E := by
  intro s holds
  refine ⟨?_,?_⟩
  · intro b s' ran
    cases ran
    exact after s holds
  · intro e s' ran
    cases ran

theorem leadsFinish {e : Ending} (atEnd : ∀ s, P s → E s) : Leads P (finish e : Process σ α) Q E := by
  intro s holds
  refine ⟨?_,?_⟩
  · intro b s' ran
    cases ran
  · intro e' s' ran
    cases ran
    exact atEnd s holds

theorem leadsUpdate {f : σ → σ} {Q : Unit → σ → Prop} (after : ∀ s, P s → Q () (f s)) : Leads P (update f) Q E := by
  intro s holds
  refine ⟨?_,?_⟩
  · intro b s' ran
    cases ran
    exact after s holds
  · intro e s' ran
    cases ran

theorem leadsThen {m : Process σ α} {f : α → Process σ β} (first : Leads P m Q E)
    (rest : ∀ a, Leads (Q a) (f a) R E) : Leads P (m >>= f) R E := by
  intro s holds
  have shape : (m >>= f) s = andThen m f s := rfl
  obtain ⟨went,ended⟩ := first s holds
  rw [shape]
  unfold andThen
  split
  · rename_i a s' ran
    exact rest a s' (went a s' ran)
  · rename_i e s' ran
    refine ⟨?_,?_⟩
    · intro b s'' same
      cases same
    · intro e' s'' same
      cases same
      exact ended e s' ran

theorem leadsWeaken {m : Process σ α} (leads : Leads P m Q E) (before : ∀ s, P' s → P s)
    (after : ∀ a s, Q a s → Q' a s) (atEnd : ∀ s, E s → E' s) : Leads P' m Q' E' := by
  intro s holds
  obtain ⟨went,ended⟩ := leads s (before s holds)
  exact ⟨fun a s' ran => after a s' (went a s' ran),fun e s' ran => atEnd s' (ended e s' ran)⟩

theorem leadsBail {o : Option α} (atEnd : o = none → ∀ s, P s → E s) :
    Leads P (orBail o) (fun a s => o = some a ∧ P s) E := by
  cases o with
  | some a => exact leadsValue fun _ holds => ⟨rfl,holds⟩
  | none => exact leadsFinish (atEnd rfl)

theorem leadsEach {f : β → Process σ Unit} (step : ∀ b, Leads P (f b) (fun _ => P) E) :
    ∀ bs, Leads P (each f bs) (fun _ => P) E
  | [] => leadsValue fun _ holds => holds
  | b :: bs => leadsThen (step b) fun _ => leadsEach step bs

/- The state that is reached, however the process went. -/
theorem leadsState {m : Process σ α} (leads : Leads P m (fun _ => E) E) {s : σ} (holds : P s) : E (m s).2 := by
  obtain ⟨went,ended⟩ := leads s holds
  cases ran : m s with
  | mk result s' =>
    cases result with
    | ok a => exact went a s' ran
    | error e => exact ended e s' ran

end Rules
end OpenuuServer.ProcessRuns
