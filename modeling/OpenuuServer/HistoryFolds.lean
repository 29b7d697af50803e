import OpenuuServer.AtomicProgram

/-! Parts of the shared state read as history. A part that only operations change is a fold of the
operations executed so far; a part that operations put elements into and take elements out of, in
one order, is what was put in and not yet taken. -/
namespace OpenuuServer.HistoryFolds
open AtomicProgram

section Programs
variable {Op : Type} {Resp : Op → Type} {α β : Type} {counts : Op → Bool}

/- However it is answered, the program performs at most so many of the operations that count. -/
def Within (counts : Op → Bool) : Nat → Prog Op Resp α → Prop
  | _,.ret _ => True
  | n,.op o next => if counts o then 0 < n ∧ ∀ r, Within counts (n - 1) (next r) else ∀ r, Within counts n (next r)

theorem withinFree (n : Nat) {p : Prog Op Resp α} (free : p.Every fun o => counts o = false) : Within counts n p := by
  induction p with
  | ret value => trivial
  | op o next ih =>
    rw [Within,if_neg (by simp [free.1])]
    exact fun r => ih r (free.2 r)

theorem withinBind {n k : Nat} {p : Prog Op Resp α} {next : α → Prog Op Resp β} (first : Within counts n p)
    (rest : ∀ value, Within counts k (next value)) : Within counts (n + k) (p >>= next) := by
  have longer : ∀ {n l : Nat} {q : Prog Op Resp β}, n ≤ l → Within counts n q → Within counts l q := by
    intro n l q less within
    induction q generalizing n l with
    | ret value => trivial
    | op o next ih =>
      unfold Within at within ⊢
      split at within
      · rename_i hit
        rw [if_pos hit]
        exact ⟨by omega,fun r => ih r (by omega) (within.2 r)⟩
      · rename_i free
        rw [if_neg free]
        exact fun r => ih r less (within r)
  induction p generalizing n with
  | ret value => exact longer (Nat.le_add_left k n) (rest value)
  | op o step ih =>
    show Within counts (n + k) (.op o fun r => step r >>= next)
    unfold Within at first ⊢
    split at first
    · rename_i hit
      rw [if_pos hit]
      refine ⟨by omega,fun r => ?_⟩
      rw [show n + k - 1 = n - 1 + k by omega]
      exact ih r (first.2 r)
    · rename_i free
      rw [if_neg free]
      exact fun r => ih r (first r)

/- What comes first does not count. -/
theorem withinThen {n : Nat} {p : Prog Op Resp α} {next : α → Prog Op Resp β} (first : p.Every fun o => counts o = false)
    (rest : ∀ value, Within counts n (next value)) : Within counts n (p >>= next) := by
  have both := withinBind (withinFree 0 first) rest
  rwa [Nat.zero_add] at both

theorem withinBefore {n : Nat} {p : Prog Op Resp α} {k : α → Prog Op Resp β} (first : Within counts n p)
    (rest : ∀ value, (k value).Every fun o => counts o = false) : Within counts n (p >>= k) :=
  withinBind (k := 0) first fun value => withinFree 0 (rest value)

theorem withinIte {n : Nat} {c : Prop} [Decidable c] {p p' : Prog Op Resp α} (left : Within counts n p)
    (right : Within counts n p') : Within counts n (if c then p else p') := by
  split
  · exact left
  · exact right

theorem withinNone {p : Prog Op Resp α} (within : Within counts 0 p) : p.Every fun o => counts o = false := by
  induction p with
  | ret value => trivial
  | op o next ih =>
    unfold Within at within
    split at within
    · exact absurd within.1 (Nat.lt_irrefl 0)
    · rename_i free
      exact ⟨by simpa using free,fun r => ih r (within r)⟩

theorem withinOne {p : Prog Op Resp α} (within : Within counts 1 p) : p.AtMostOne fun o => counts o = true := by
  induction p with
  | ret value => trivial
  | op o next ih =>
    unfold Within at within
    split at within
    · have free : ∀ r, (next r).Every fun o => counts o = false := fun r => withinNone (within.2 r)
      exact ⟨fun _ r => everyMono (fun o free => by simp [free]) (free r),fun r => ih r (withinFree 1 (free r))⟩
    · rename_i free
      exact ⟨fun hit => absurd hit free,fun r => ih r (within r)⟩

end Programs

section Runs
variable {Op : Type} {Resp : Op → Type} {Call Env σ α τ β : Type} {m : Machine Op Resp Call Env σ α}
variable {ok : Pool Op Resp Call σ α → Act Call Env → Prop} {s : σ} {w : Pool Op Resp Call σ α}

/- Two operations of one task of a kind that no program performs twice are one. -/
theorem onceEach {P : Op → Prop} (once : ∀ i c, (m.program i c).AtMostOne P) (reach : m.Reach ok s w)
    {e e' : Event Op Resp Call σ} (left : e ∈ w.log) (right : e' ∈ w.log) (task : e.task = e'.task) (hit : P e.did.1)
    (hit' : P e'.did.1) : e = e' := by
  by_contra different
  have symmetric : Std.Symm fun (d d' : Event Op Resp Call σ) => d.task = d'.task → P d.did.1 → ¬ P d'.did.1 :=
    ⟨fun d d' apart same hit hit' => apart same.symm hit' hit⟩
  exact (Machine.performedOnce once reach).forall left right different task hit hit'

/- The part `view` of the state changes with operations alone, each time as `next` says of the
operation, the state it found and the old value. -/
structure Recorded (m : Machine Op Resp Call Env σ α) (view : σ → τ) (next : Did Op Resp → σ → τ → τ) : Prop where
  op : ∀ o s, view (m.exec o s).2 = next ⟨o,(m.exec o s).1⟩ s (view s)
  env : ∀ e s, view (m.env e s) = view s

def replay (next : Did Op Resp → σ → τ → τ) (log : List (Event Op Resp Call σ)) (start : τ) : τ :=
  log.foldl (fun v e => next e.did e.before v) start

@[simp] theorem replayLast (next : Did Op Resp → σ → τ → τ) (log : List (Event Op Resp Call σ))
    (e : Event Op Resp Call σ) (start : τ) :
    replay next (log ++ [e]) start = next e.did e.before (replay next log start) := by simp [replay]

theorem recorded {view : σ → τ} {next : Did Op Resp → σ → τ → τ} (whole : Recorded m view next)
    (reach : m.Reach ok s w) : view w.shared = replay next w.log (view s) := by
  refine Machine.invariant (I := fun w => view w.shared = replay next w.log (view s)) rfl ?_ ?_ ?_ reach
  · intro w c _ _ ih
    exact ih
  · intro w i c o k _ _ _ _ ih
    show view (m.exec o w.shared).2 = replay next (w.log ++ [m.happening w i c o]) (view s)
    rw [replayLast,← ih]
    exact whole.op o w.shared
  · intro w e _ _ ih
    exact (whole.env e w.shared).trans ih

/- What an operation found of such a part is the fold of all that came before it. -/
theorem recordedBefore {view : σ → τ} {next : Did Op Resp → σ → τ → τ} (whole : Recorded m view next)
    (reach : m.Reach ok s w) {e} (member : e ∈ w.log) : view e.before = replay next (w.earlier e) (view s) := by
  obtain ⟨v,reached,shared,_,log,_⟩ := Machine.momentPast reach member
  rw [← shared,← log]
  exact recorded whole reached

/- A fact about the state that no operation makes true but those that bring it about, and that some
operations put an end to. -/
structure Tracked (m : Machine Op Resp Call Env σ α) (stands : σ → β → Prop) (brings : Did Op Resp → σ → β → Prop)
    (ends : Did Op Resp → β → Prop) : Prop where
  op : ∀ o s b, stands (m.exec o s).2 b → stands s b ∧ ¬ ends ⟨o,(m.exec o s).1⟩ b ∨ brings ⟨o,(m.exec o s).1⟩ s b
  env : ∀ e s b, stands (m.env e s) b → stands s b

/- Such a fact holds since the beginning or since one operation, and nothing has ended it in between. -/
theorem tracked {stands : σ → β → Prop} {brings : Did Op Resp → σ → β → Prop} {ends : Did Op Resp → β → Prop}
    (track : Tracked m stands brings ends) (reach : m.Reach ok s w) : ∀ b, stands w.shared b →
      (stands s b ∧ ∀ a ∈ w.log, ¬ ends a.did b) ∨
      ∃ e ∈ w.log, brings e.did e.before b ∧ ∀ a ∈ w.log, e.pos < a.pos → ¬ ends a.did b := by
  refine Machine.invariant (I := fun w => ∀ b, stands w.shared b → (stands s b ∧ ∀ a ∈ w.log, ¬ ends a.did b) ∨
      ∃ e ∈ w.log, brings e.did e.before b ∧ ∀ a ∈ w.log, e.pos < a.pos → ¬ ends a.did b) ?_ ?_ ?_ ?_ reach
  · exact fun b there => .inl ⟨there,fun a none => by cases none⟩
  · intro w c _ _ ih
    exact ih
  · intro w i c o k before _ _ _ ih b there
    rcases track.op o w.shared b there with ⟨old,kept⟩ | new
    · rcases ih b old with ⟨first,spared⟩ | ⟨e,inside,brought,spared⟩
      · refine .inl ⟨first,fun a member => ?_⟩
        rcases Machine.memPerformed.mp member with inside | rfl
        · exact spared a inside
        · exact kept
      · refine .inr ⟨e,Machine.stillThere inside,brought,fun a member less => ?_⟩
        rcases Machine.memPerformed.mp member with inside | rfl
        · exact spared a inside less
        · exact kept
    · refine .inr ⟨_,Machine.happened,new,fun a member less => ?_⟩
      rcases Machine.memPerformed.mp member with inside | rfl
      · exact absurd (Machine.olderPosition before inside) (Nat.lt_asymm less)
      · exact absurd less (Nat.lt_irrefl _)
  · intro w e _ _ ih b there
    exact ih b (track.env e w.shared b there)

/- What an operation found to hold, by the same token. -/
theorem trackedBefore {stands : σ → β → Prop} {brings : Did Op Resp → σ → β → Prop} {ends : Did Op Resp → β → Prop}
    (track : Tracked m stands brings ends) (reach : m.Reach ok s w) {e} (member : e ∈ w.log) {b} (there : stands e.before b) :
    (stands s b ∧ ∀ a ∈ w.log, a.pos < e.pos → ¬ ends a.did b) ∨ ∃ d ∈ w.log, d.pos < e.pos ∧ brings d.did d.before b ∧
      ∀ a ∈ w.log, d.pos < a.pos → a.pos < e.pos → ¬ ends a.did b := by
  obtain ⟨v,reached,_,shared,history,_⟩ := Machine.moment reach member
  rw [← shared] at there
  rcases tracked track reached b there with ⟨first,spared⟩ | ⟨d,early,brought,spared⟩
  · exact .inl ⟨first,fun a inside less => spared a ((history a).mpr ⟨inside,less⟩)⟩
  · obtain ⟨inside,less⟩ := (history d).mp early
    exact .inr ⟨d,inside,less,brought,fun a there more less' => spared a ((history a).mpr ⟨there,less'⟩) more⟩

/- A fact that nothing is known to end. -/
structure Sourced (m : Machine Op Resp Call Env σ α) (stands : σ → β → Prop) (brings : Op → β → Prop) : Prop where
  op : ∀ o s b, stands (m.exec o s).2 b → stands s b ∨ brings o b
  env : ∀ e s b, stands (m.env e s) b → stands s b

theorem sourcedTracked {stands : σ → β → Prop} {brings : Op → β → Prop} (origin : Sourced m stands brings) :
    Tracked m stands (fun d _ b => brings d.1 b) fun _ _ => False where
  op o s b there := (origin.op o s b there).imp_left fun old => ⟨old,id⟩
  env := origin.env

theorem sourcedBefore {stands : σ → β → Prop} {brings : Op → β → Prop} (origin : Sourced m stands brings)
    (reach : m.Reach ok s w) {e} (member : e ∈ w.log) {b} (there : stands e.before b) :
    stands s b ∨ ∃ a ∈ w.log, a.pos < e.pos ∧ brings a.did.1 b := by
  rcases trackedBefore (sourcedTracked origin) reach member there with ⟨first,_⟩ | ⟨d,inside,less,brought,_⟩
  · exact .inl first
  · exact .inr ⟨d,inside,less,brought⟩

/- A queue: what an operation puts in goes to the end, what it takes comes from the front. -/
structure Queued (m : Machine Op Resp Call Env σ α) (queue : σ → List β) (put taken : Did Op Resp → List β) : Prop where
  op : ∀ o s, queue s ++ put ⟨o,(m.exec o s).1⟩ = taken ⟨o,(m.exec o s).1⟩ ++ queue (m.exec o s).2
  env : ∀ e s, queue (m.env e s) = queue s

/- All that was ever put in, in order, is all that was taken, in order, and then what is still there. -/
theorem inOrder {queue : σ → List β} {put taken : Did Op Resp → List β} (fifo : Queued m queue put taken)
    (reach : m.Reach ok s w) :
    queue s ++ w.log.flatMap (fun e => put e.did) = w.log.flatMap (fun e => taken e.did) ++ queue w.shared := by
  refine Machine.invariant (I := fun w => queue s ++ w.log.flatMap (fun e => put e.did) =
    w.log.flatMap (fun e => taken e.did) ++ queue w.shared) ?_ ?_ ?_ ?_ reach
  · simp [Machine.initial]
  · intro w c _ _ ih
    exact ih
  · intro w i c o k _ _ _ _ ih
    have step := fifo.op o w.shared
    show queue s ++ (w.log ++ [m.happening w i c o]).flatMap (fun e => put e.did) =
      (w.log ++ [m.happening w i c o]).flatMap (fun e => taken e.did) ++ queue (m.exec o w.shared).2
    simp only [List.flatMap_append,List.flatMap_singleton,List.append_assoc]
    calc queue s ++ (w.log.flatMap (fun e => put e.did) ++ put ⟨o,(m.exec o w.shared).1⟩)
        = w.log.flatMap (fun e => taken e.did) ++ (queue w.shared ++ put ⟨o,(m.exec o w.shared).1⟩) := by
          rw [← List.append_assoc,ih,List.append_assoc]
      _ = w.log.flatMap (fun e => taken e.did) ++ (taken ⟨o,(m.exec o w.shared).1⟩ ++ queue (m.exec o w.shared).2) := by
          rw [step]
  · intro w e _ _ ih
    show _ = _ ++ queue (m.env e w.shared)
    rw [fifo.env]
    exact ih

end Runs
end OpenuuServer.HistoryFolds
