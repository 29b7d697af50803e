import OpenuuServer.AtomicProgram

/-! Two machines side by side, in any interleaving. A task of the first can have the second start a
call for it, and a response that needs an answer comes only when a call of its own has come to one. -/
namespace OpenuuServer.CoupledMachines
open AtomicProgram

section Answers
variable {Op : Type} [DecidableEq Op] {Resp : Op → Type} {α : Type}

/- What the program returns once it has done just this. -/
def answer : Prog Op Resp α → List (Did Op Resp) → Option α
  | .ret value,[] => some value
  | .op o next,d :: rest => if same : d.1 = o then answer (next (same ▸ d.2)) rest else none
  | _,_ => none

theorem answerPath {p : Prog Op Resp α} {dids : List (Did Op Resp)} {value : α} (found : answer p dids = some value) :
    Path p dids (.ret value) := by
  induction p generalizing dids with
  | ret value' =>
    cases dids with
    | nil => cases Option.some.inj found; exact .here _
    | cons d rest => contradiction
  | op o next ih =>
    cases dids with
    | nil => contradiction
    | cons d rest =>
      obtain ⟨o',r⟩ := d
      simp only [answer] at found
      split at found <;> try contradiction
      rename_i same
      subst same
      exact .next (ih _ found)

end Answers

section Pairs
variable {Op Op' : Type} {Resp : Op → Type} {Resp' : Op' → Type} {Call Call' Env Env' σ σ' α α' : Type}

/- What an operation asks the other machine to do, which responses need an answer, and when a task of
the other machine has come to that answer. -/
structure Wiring (Op : Type) (Resp : Op → Type) (Op' : Type) (Resp' : Op' → Type) (Call' σ' α' : Type) where
  asks : Op → Call' → Bool
  relies : (o : Op) → Resp o → Bool
  grounds : (o : Op) → Resp o → Pool Op' Resp' Call' σ' α' → Nat → Bool

/- `asked` pairs tasks of the front with the tasks they had started in the back. -/
structure Both (Op : Type) (Resp : Op → Type) (Call σ α : Type) (Op' : Type) (Resp' : Op' → Type) (Call' σ' α' : Type) where
  front : Pool Op Resp Call σ α
  back : Pool Op' Resp' Call' σ' α'
  asked : List (Nat × Nat)

inductive Move (Call Env Call' Env' : Type) where
  | front (a : Act Call Env)
  | back (a : Act Call' Env')
  | ask (i : Nat) (c : Call')
  deriving DecidableEq

variable (m : Machine Op Resp Call Env σ α) (n : Machine Op' Resp' Call' Env' σ' α')
variable (wiring : Wiring Op Resp Op' Resp' Call' σ' α')

/- What the task is about to do gets its response from nowhere but the calls it asked for. -/
def Both.grounded (b : Both Op Resp Call σ α Op' Resp' Call' σ' α') (i : Nat) : Bool :=
  match b.front.next i with
  | some o =>
    let r := (m.exec o b.front.shared).1
    !wiring.relies o r || b.asked.any fun pair => pair.1 = i && wiring.grounds o r b.back pair.2
  | none => true

def Both.permits (b : Both Op Resp Call σ α Op' Resp' Call' σ' α') : Act Call Env → Bool
  | .advance i => b.grounded m wiring i
  | _ => true

def step (b : Both Op Resp Call σ α Op' Resp' Call' σ' α') :
    Move Call Env Call' Env' → Option (Both Op Resp Call σ α Op' Resp' Call' σ' α')
  | .front a => if b.permits m wiring a then (m.step b.front a).map fun v => { b with front := v } else none
  | .back a => (n.step b.back a).map fun v => { b with back := v }
  | .ask i c =>
    if (b.front.next i).any fun o => wiring.asks o c then
      some { b with back := n.started b.back c,asked := (i,b.back.tasks.length) :: b.asked }
    else none

/- The condition `ok` is on the steps of the back, those taken on request among them. -/
def Allowed (ok : Pool Op' Resp' Call' σ' α' → Act Call' Env' → Prop) (b : Both Op Resp Call σ α Op' Resp' Call' σ' α') :
    Move Call Env Call' Env' → Prop
  | .front _ => True
  | .back a => ok b.back a
  | .ask _ c => ok b.back (.start c)

instance (ok : Pool Op' Resp' Call' σ' α' → Act Call' Env' → Prop) [∀ v a, Decidable (ok v a)]
    (b : Both Op Resp Call σ α Op' Resp' Call' σ' α') (move : Move Call Env Call' Env') : Decidable (Allowed ok b move) := by
  cases move <;> (unfold Allowed; infer_instance)

def initial (s : σ) (s' : σ') : Both Op Resp Call σ α Op' Resp' Call' σ' α' := ⟨Machine.initial s,Machine.initial s',[]⟩

inductive Reach (ok : Pool Op' Resp' Call' σ' α' → Act Call' Env' → Prop) (s : σ) (s' : σ') :
    Both Op Resp Call σ α Op' Resp' Call' σ' α' → Prop where
  | initial : Reach ok s s' (initial s s')
  | step {b move b'} (before : Reach ok s s' b) (meets : Allowed ok b move) (taken : step m n wiring b move = some b') :
      Reach ok s s' b'

def run (ok : Pool Op' Resp' Call' σ' α' → Act Call' Env' → Prop) [∀ v a, Decidable (ok v a)]
    (b : Both Op Resp Call σ α Op' Resp' Call' σ' α') :
    List (Move Call Env Call' Env') → Option (Both Op Resp Call σ α Op' Resp' Call' σ' α')
  | [] => some b
  | move :: rest => if Allowed ok b move then (step m n wiring b move).bind fun b' => run ok b' rest else none

variable {m n wiring}
variable {ok : Pool Op' Resp' Call' σ' α' → Act Call' Env' → Prop} {s : σ} {s' : σ'}
variable {b : Both Op Resp Call σ α Op' Resp' Call' σ' α'}

theorem reachRun [∀ v a, Decidable (ok v a)] {moves b'} (reach : Reach m n wiring ok s s' b)
    (ran : run m n wiring ok b moves = some b') : Reach m n wiring ok s s' b' := by
  induction moves generalizing b with
  | nil => cases Option.some.inj ran; exact reach
  | cons move rest ih =>
    simp only [run] at ran
    split at ran <;> try contradiction
    rename_i meets
    obtain ⟨v,taken,later⟩ := Option.bind_eq_some_iff.mp ran
    exact ih (.step reach meets taken) later

/- The invariant rule: the front moves, and where it goes on with an operation that is grounded; the
back moves; the back starts a call for a task of the front. -/
theorem invariant {I : Both Op Resp Call σ α Op' Resp' Call' σ' α' → Prop} (first : I (initial s s'))
    (onFront : ∀ b a v, Reach m n wiring ok s s' b → b.permits m wiring a = true → m.step b.front a = some v → I b →
      I { b with front := v })
    (onBack : ∀ b a v, Reach m n wiring ok s s' b → ok b.back a → n.step b.back a = some v → I b → I { b with back := v })
    (onAsk : ∀ b i o c, Reach m n wiring ok s s' b → ok b.back (.start c) → b.front.next i = some o → wiring.asks o c = true →
      I b → I { b with back := n.started b.back c,asked := (i,b.back.tasks.length) :: b.asked })
    (reach : Reach m n wiring ok s s' b) : I b := by
  induction reach with
  | initial => exact first
  | @step b move b' before meets taken ih =>
    cases move with
    | front a =>
      simp only [step] at taken
      split at taken <;> try contradiction
      rename_i free
      obtain ⟨v,stepped,rfl⟩ := Option.map_eq_some_iff.mp taken
      exact onFront b a v before free stepped ih
    | back a =>
      obtain ⟨v,stepped,rfl⟩ := Option.map_eq_some_iff.mp taken
      exact onBack b a v before meets stepped ih
    | ask i c =>
      simp only [step] at taken
      split at taken <;> try contradiction
      rename_i due
      obtain ⟨o,next,asks⟩ := (Option.any_eq_true _ _).mp due
      cases Option.some.inj taken
      exact onAsk b i o c before meets next asks ih

theorem frontReached (reach : Reach m n wiring ok s s' b) : m.Reach (fun _ _ => True) s b.front := by
  refine invariant (I := fun b => m.Reach (fun _ _ => True) s b.front) .initial ?_ ?_ ?_ reach
  · intro b a v _ _ stepped ih
    exact .step ih trivial stepped
  · intro b a v _ _ _ ih; exact ih
  · intro b i o c _ _ _ _ ih; exact ih

theorem backReached (reach : Reach m n wiring ok s s' b) : n.Reach ok s' b.back := by
  refine invariant (I := fun b => n.Reach ok s' b.back) .initial ?_ ?_ ?_ reach
  · intro b a v _ _ _ ih; exact ih
  · intro b a v _ meets stepped ih
    exact .step ih meets stepped
  · intro b i o c _ meets _ _ ih
    exact .step ih meets rfl

/- A call is made for one task. -/
theorem askedOnce (reach : Reach m n wiring ok s s' b) {i i' j : Nat} (left : (i,j) ∈ b.asked) (right : (i',j) ∈ b.asked) :
    i = i' := by
  suffices apart : (∀ pair ∈ b.asked, pair.2 < b.back.tasks.length) ∧
      ∀ pair ∈ b.asked, ∀ pair' ∈ b.asked, pair.2 = pair'.2 → pair.1 = pair'.1 from apart.2 _ left _ right rfl
  clear left right
  refine invariant (I := fun b => (∀ pair ∈ b.asked, pair.2 < b.back.tasks.length) ∧
    ∀ pair ∈ b.asked, ∀ pair' ∈ b.asked, pair.2 = pair'.2 → pair.1 = pair'.1) ?_ ?_ ?_ ?_ reach
  · exact ⟨fun _ member => (by cases member),fun _ member => by cases member⟩
  · intro b a v _ _ _ ih; exact ih
  · intro b a v _ _ stepped ih
    refine ⟨fun pair member => Nat.lt_of_lt_of_le (ih.1 pair member) ?_,ih.2⟩
    cases a with
    | start c =>
      cases Option.some.inj stepped
      simp [Machine.started]
    | advance i =>
      obtain ⟨c,o,next,_,_,rfl⟩ := Machine.advanceCases stepped
      simp [Machine.performed]
    | env e =>
      cases Option.some.inj stepped
      simp only [Machine.disturbed]
      split <;> simp
  · intro b i o c _ _ _ _ ih
    refine ⟨fun pair member => ?_,fun pair member pair' member' same => ?_⟩
    · simp only [Machine.started,List.length_append,List.length_singleton]
      rcases List.mem_cons.mp member with rfl | old
      · exact Nat.lt_succ_self _
      · exact Nat.lt_succ_of_lt (ih.1 pair old)
    · rcases List.mem_cons.mp member with rfl | old <;> rcases List.mem_cons.mp member' with rfl | old'
      · rfl
      · exact absurd (ih.1 pair' old') (by omega)
      · exact absurd (ih.1 pair old) (by omega)
      · exact ih.2 pair old pair' old' same

/- What grounded a response is still known of the call later, if it is something that lasts. -/
theorem learned {K : Did Op Resp → Pool Op' Resp' Call' σ' α' → Nat → Prop}
    (enough : ∀ v, n.Reach ok s' v → ∀ o r j, wiring.relies o r = true → wiring.grounds o r v j = true → K ⟨o,r⟩ v j)
    (lasts : ∀ v a v', n.Reach ok s' v → n.step v a = some v' → ∀ d j, K d v j → K d v' j)
    (reach : Reach m n wiring ok s s' b) : ∀ e ∈ b.front.log, wiring.relies e.did.1 e.did.2 = true →
      ∃ j, (e.task,j) ∈ b.asked ∧ K e.did b.back j := by
  refine invariant (I := fun b => ∀ e ∈ b.front.log, wiring.relies e.did.1 e.did.2 = true →
      ∃ j, (e.task,j) ∈ b.asked ∧ K e.did b.back j) (fun e member => by cases member) ?_ ?_ ?_ reach
  · intro b a v before grounded stepped ih e member relies
    cases a with
    | start c =>
      cases Option.some.inj stepped
      exact ih e member relies
    | env x =>
      cases Option.some.inj stepped
      exact ih e member relies
    | advance i =>
      obtain ⟨c,o,next,found,_,rfl⟩ := Machine.advanceCases stepped
      rcases Machine.memPerformed.mp member with old | rfl
      · exact ih e old relies
      · have free : b.grounded m wiring i = true := grounded
        simp only [Both.grounded,nextIs found] at free
        have relies : wiring.relies o (m.exec o b.front.shared).1 = true := relies
        rw [relies] at free
        obtain ⟨⟨i',j⟩,inside,here⟩ := List.any_eq_true.mp free
        obtain ⟨rfl,known⟩ : i' = i ∧ wiring.grounds o (m.exec o b.front.shared).1 b.back j = true := by simpa using here
        exact ⟨j,inside,enough _ (backReached before) _ _ _ relies known⟩
  · intro b a v before _ stepped ih e member relies
    obtain ⟨j,inside,known⟩ := ih e member relies
    exact ⟨j,inside,lasts _ _ _ (backReached before) stepped _ _ known⟩
  · intro b i o c before _ _ _ ih e member relies
    obtain ⟨j,inside,known⟩ := ih e member relies
    exact ⟨j,List.mem_cons_of_mem _ inside,lasts _ (.start c) _ (backReached before) rfl _ _ known⟩

/- Where the two give the same response to whatever is grounded, the front does a run of the machine
that gets its responses elsewhere. -/
theorem frontRefines (exec : (o : Op) → σ → Resp o × σ)
    (agree : ∀ b, Reach m n wiring ok s s' b → ∀ i c o next, b.front.tasks[i]? = some ⟨c,.op o next,true⟩ →
      b.grounded m wiring i = true → m.exec o b.front.shared = exec o b.front.shared)
    (reach : Reach m n wiring ok s s' b) : { m with exec := exec }.Reach (fun _ _ => True) s b.front := by
  refine invariant (I := fun b => { m with exec := exec }.Reach (fun _ _ => True) s b.front) .initial ?_ ?_ ?_ reach
  · intro b a v before grounded stepped ih
    refine .step (a := a) ih trivial ?_
    cases a with
    | start c => exact stepped
    | env x => exact stepped
    | advance i =>
      obtain ⟨c,o,next,found,ready,rfl⟩ := Machine.advanceCases stepped
      have same := agree b before i c o next found grounded
      simp only [Machine.step,found,ready,if_pos,Machine.performed,Machine.happening,same]
  · intro b a v _ _ _ ih; exact ih
  · intro b i o c _ _ _ _ ih; exact ih

end Pairs
end OpenuuServer.CoupledMachines
