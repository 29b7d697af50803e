import OpenuuServer.AtomicProgram
import Mathlib.Order.Basic

/-! Services that answer one request after the other, as one of their users sees them: what the
requests of the others do to the state must not show in the answers to the user's own. -/
namespace OpenuuServer.Unwinding
open AtomicProgram

structure Step (Time Req : Type) where
  time : Time
  own : Bool
  req : Req

section Services
variable {Time Req Ans σ : Type} (serve : Time → Req → σ → Ans × σ)

/- The answers to the user's own requests. -/
def answers : σ → List (Step Time Req) → List Ans
  | _,[] => []
  | s,x :: rest =>
    let (answer,s') := serve x.time x.req s
    if x.own then answer :: answers s' rest else answers s' rest

/- The clock does not go back, and every step meets the condition where it is taken. -/
def Meets [LE Time] (ok : List Req → σ → Step Time Req → Prop) : List Req → σ → Time → List (Step Time Req) → Prop
  | _,_,_,[] => True
  | past,s,now,x :: rest => now ≤ x.time ∧ ok past s x ∧
    Meets ok (past ++ [x.req]) (serve x.time x.req s).2 x.time rest

instance meetsDecidable [LE Time] [DecidableLE Time] (ok : List Req → σ → Step Time Req → Prop)
    [∀ past s x, Decidable (ok past s x)] :
    (past : List Req) → (s : σ) → (now : Time) → (run : List (Step Time Req)) →
      Decidable (Meets serve ok past s now run)
  | _,_,_,[] => .isTrue trivial
  | past,s,now,x :: rest =>
    have : Decidable (Meets serve ok (past ++ [x.req]) (serve x.time x.req s).2 x.time rest) :=
      meetsDecidable ok (past ++ [x.req]) (serve x.time x.req s).2 x.time rest
    inferInstanceAs (Decidable (now ≤ x.time ∧ ok past s x ∧ _))

/- Alike are two states that the user cannot tell apart from now on. -/
structure Unwinds [LE Time] (ok : List Req → σ → Step Time Req → Prop)
    (alike : List Req → Time → σ → σ → Prop) : Prop where
  later : ∀ past now time s s', now ≤ time → alike past now s s' → alike past time s s'
  own : ∀ past s s' x, ok past s x → x.own = true → alike past x.time s s' →
    (serve x.time x.req s).1 = (serve x.time x.req s').1 ∧
      alike (past ++ [x.req]) x.time (serve x.time x.req s).2 (serve x.time x.req s').2
  foreign : ∀ past s s' x, ok past s x → x.own = false → alike past x.time s s' →
    alike (past ++ [x.req]) x.time (serve x.time x.req s).2 s'

variable {serve}

/- The others' requests can be left out. -/
theorem answersPurged [LE Time] {ok : List Req → σ → Step Time Req → Prop} {alike : List Req → Time → σ → σ → Prop}
    (unwinds : Unwinds serve ok alike) {run : List (Step Time Req)} {past s s' now}
    (meets : Meets serve ok past s now run) (same : alike past now s s') :
    answers serve s run = answers serve s' (run.filter Step.own) := by
  induction run generalizing past s s' now with
  | nil => rfl
  | cons x rest ih =>
    obtain ⟨order,admitted,rest⟩ := meets
    have here := unwinds.later _ _ _ _ _ order same
    cases owned : x.own with
    | true =>
      obtain ⟨answer,after⟩ := unwinds.own past s s' x admitted owned here
      rw [List.filter_cons_of_pos owned]
      simp only [answers,owned,if_pos,answer]
      rw [ih rest after]
    | false =>
      rw [List.filter_cons_of_neg (by simp [owned])]
      simp only [answers,owned]
      exact ih rest (unwinds.foreign past s s' x admitted owned here)

theorem sameAnswers [LE Time] {ok : List Req → σ → Step Time Req → Prop} {alike : List Req → Time → σ → σ → Prop}
    (unwinds : Unwinds serve ok alike) {left right : List (Step Time Req)} {s now}
    (first : Meets serve ok [] s now left) (second : Meets serve ok [] s now right) (same : alike [] now s s)
    (agree : left.filter Step.own = right.filter Step.own) : answers serve s left = answers serve s right := by
  rw [answersPurged unwinds first same,answersPurged unwinds second same,agree]

end Services

/- The rules behind it for a program that runs alone: what it keeps of a state, and what two runs
of it from different states keep of both. -/
section Programs
variable {Op : Type} {Resp : Op → Type} {α β σ : Type} (exec : (o : Op) → σ → Resp o × σ)

def Keeps (I : σ → Prop) (p : Prog Op Resp α) : Prop := ∀ s, I s → I (p.run exec s).2

def Together (R R' : σ → σ → Prop) (p p' : Prog Op Resp α) : Prop := ∀ s s', R s s' →
  (p.run exec s).1 = (p'.run exec s').1 ∧ R' (p.run exec s).2 (p'.run exec s').2

variable {exec} {I : σ → Prop} {R R' R'' : σ → σ → Prop}

theorem keepsRet {value : α} : Keeps exec I (.ret value : Prog Op Resp α) := fun _ holds => holds

theorem keepsOp {o : Op} {next : Resp o → Prog Op Resp α}
    (step : ∀ s, I s → I (exec o s).2 ∧ Keeps exec I (next (exec o s).1)) : Keeps exec I (.op o next) := by
  intro s holds
  obtain ⟨after,rest⟩ := step s holds
  exact rest _ after

theorem keepsBind {p : Prog Op Resp α} {k : α → Prog Op Resp β} (first : Keeps exec I p)
    (second : ∀ value, Keeps exec I (k value)) : Keeps exec I (p >>= k) := by
  intro s holds
  rw [runBind]
  exact second _ _ (first s holds)

theorem keepsEvery {P : Op → Prop} (step : ∀ o s, P o → I s → I (exec o s).2) {p : Prog Op Resp α}
    (all : p.Every P) : Keeps exec I p := by
  induction p with
  | ret value => exact keepsRet
  | op o next ih => exact keepsOp fun s holds => ⟨step o s all.1 holds,ih _ (all.2 _)⟩

theorem togetherRet {value : α} (weaker : ∀ s s', R s s' → R' s s') :
    Together exec R R' (.ret value : Prog Op Resp α) (.ret value) := fun s s' same => ⟨rfl,weaker s s' same⟩

theorem togetherOp {o : Op} {next next' : Resp o → Prog Op Resp α} (step : ∀ s s', R s s' →
    R' (exec o s).2 (exec o s').2 ∧ Together exec R' R'' (next (exec o s).1) (next' (exec o s').1)) :
    Together exec R R'' (.op o next) (.op o next') := by
  intro s s' same
  obtain ⟨after,rest⟩ := step s s' same
  exact rest _ _ after

theorem togetherSame {o : Op} {next : Resp o → Prog Op Resp α} (answer : ∀ s s', R s s' → (exec o s).1 = (exec o s').1)
    (after : ∀ s s', R s s' → R' (exec o s).2 (exec o s').2)
    (rest : ∀ s s', R s s' → Together exec R' R'' (next (exec o s).1) (next (exec o s).1)) :
    Together exec R R'' (.op o next) (.op o next) :=
  togetherOp fun s s' same => ⟨after s s' same,answer s s' same ▸ rest s s' same⟩

theorem togetherIte {c : Prop} [Decidable c] {x x' y y' : Prog Op Resp α} (first : c → Together exec R R' x x')
    (second : ¬ c → Together exec R R' y y') : Together exec R R' (if c then x else y) (if c then x' else y') := by
  by_cases h : c
  · rw [if_pos h,if_pos h]
    exact first h
  · rw [if_neg h,if_neg h]
    exact second h

/- The rest may rely on what the value of the first part can be. -/
theorem togetherBind {p p' : Prog Op Resp α} {k : α → Prog Op Resp β} (V : α → Prop)
    (first : ∀ s s', R s s' → (p.run exec s).1 = (p'.run exec s').1 ∧ R' (p.run exec s).2 (p'.run exec s').2 ∧
      V (p.run exec s).1)
    (second : ∀ value, V value → Together exec R' R'' (k value) (k value)) : Together exec R R'' (p >>= k) (p' >>= k) := by
  intro s s' same
  obtain ⟨value,after,known⟩ := first s s' same
  rw [runBind,runBind,← value]
  exact second _ known _ _ after

theorem runMap (f : α → β) (p : Prog Op Resp α) (s : σ) :
    (f <$> p).run exec s = (f (p.run exec s).1,(p.run exec s).2) := by
  induction p generalizing s with
  | ret value => rfl
  | op o next ih => exact ih _ _

theorem keepsMap {f : α → β} {p : Prog Op Resp α} (inner : Keeps exec I p) : Keeps exec I (f <$> p) := by
  intro s holds
  rw [runMap]
  exact inner s holds

theorem togetherMap {f : α → β} {p p' : Prog Op Resp α} (inner : Together exec R R' p p') :
    Together exec R R' (f <$> p) (f <$> p') := by
  intro s s' same
  obtain ⟨value,after⟩ := inner s s' same
  rw [runMap,runMap,value]
  exact ⟨rfl,after⟩

/- A part over fewer operations runs as it does where they are all there is. -/
theorem runEmbed {Op' : Type} {Resp' : Op' → Type} {exec' : (o : Op') → σ → Resp' o × σ} {lift : Op → Op'}
    {back : (o : Op) → Resp' (lift o) → Resp o}
    (same : ∀ o s, (back o (exec' (lift o) s).1,(exec' (lift o) s).2) = exec o s) (p : Prog Op Resp α) (s : σ) :
    (p.embed lift back).run exec' s = p.run exec s := by
  induction p generalizing s with
  | ret value => rfl
  | op o next ih =>
    have here := same o s
    simp only [embedOp,Prog.run]
    rw [← here]
    exact ih _ _

end Programs
end OpenuuServer.Unwinding
