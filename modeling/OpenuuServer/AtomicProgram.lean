import Mathlib.Data.List.Basic
import Mathlib.Data.List.Pairwise
import Mathlib.Data.List.Sort
import Mathlib.Tactic.Tauto

/-! Finite programs over atomic operations, and pools of such programs that run
concurrently. A program stops at every operation, so that one operation is the unit
of interleaving; its response decides the rest. The pool keeps the history of all
operations executed so far with the state each one found. -/
namespace OpenuuServer.AtomicProgram

inductive Prog (Op : Type) (Resp : Op → Type) (α : Type) : Type where
  | ret (value : α)
  | op (o : Op) (next : Resp o → Prog Op Resp α)

section Programs
variable {Op : Type} {Resp : Op → Type} {α β σ : Type}

def Prog.bind : Prog Op Resp α → (α → Prog Op Resp β) → Prog Op Resp β
  | .ret value, k => k value
  | .op o next, k => .op o fun r => (next r).bind k

instance : Monad (Prog Op Resp) where
  pure := .ret
  bind := Prog.bind

def perform (o : Op) : Prog Op Resp (Resp o) := .op o .ret

@[simp] theorem pureIsRet (value : α) : (pure value : Prog Op Resp α) = .ret value := rfl
@[simp] theorem bindRet (value : α) (k : α → Prog Op Resp β) :
    (Prog.ret value >>= k) = k value := rfl
@[simp] theorem bindOp (o : Op) (next : Resp o → Prog Op Resp α) (k : α → Prog Op Resp β) :
    (Prog.op o next >>= k) = .op o fun r => next r >>= k := rfl
@[simp] theorem performIs (o : Op) : (perform o : Prog Op Resp (Resp o)) = .op o .ret := rfl
@[simp] theorem mapRet (f : α → β) (value : α) :
    f <$> (Prog.ret value : Prog Op Resp α) = .ret (f value) := rfl
@[simp] theorem mapOp (f : α → β) (o : Op) (next : Resp o → Prog Op Resp α) :
    f <$> Prog.op o next = .op o fun r => f <$> next r := rfl

theorem mapIdentity (p : Prog Op Resp α) : id <$> p = p := by
  induction p with
  | ret value => rfl
  | op o next ih => rw [mapOp]; exact congrArg _ (funext ih)

theorem bindAssoc {γ : Type} (p : Prog Op Resp α) (k : α → Prog Op Resp β) (l : β → Prog Op Resp γ) :
    p >>= k >>= l = p >>= fun value => k value >>= l := by
  induction p with
  | ret value => rfl
  | op o next ih => simp only [bindOp,ih]

instance : LawfulMonad (Prog Op Resp) := .mk' _ mapIdentity (fun _ _ => rfl) bindAssoc

/- One program on its own: nothing else touches the state between its operations. -/
def Prog.run (exec : (o : Op) → σ → Resp o × σ) : Prog Op Resp α → σ → α × σ
  | .ret value, s => (value, s)
  | .op o next, s => (next (exec o s).1).run exec (exec o s).2

theorem runBind (exec : (o : Op) → σ → Resp o × σ) (p : Prog Op Resp α)
    (k : α → Prog Op Resp β) (s : σ) :
    (p >>= k).run exec s = (k (p.run exec s).1).run exec (p.run exec s).2 := by
  induction p generalizing s with
  | ret value => rfl
  | op o next ih => exact ih _ _

abbrev Did (Op : Type) (Resp : Op → Type) : Type := (o : Op) × Resp o

inductive Path : Prog Op Resp α → List (Did Op Resp) → Prog Op Resp α → Prop where
  | here (p) : Path p [] p
  | next {o next r dids q} (rest : Path (next r) dids q) : Path (.op o next) (⟨o,r⟩ :: dids) q

theorem pathExtend {p : Prog Op Resp α} {dids o next} (h : Path p dids (.op o next)) (r : Resp o) :
    Path p (dids ++ [⟨o,r⟩]) (next r) := by
  generalize same : Prog.op o next = q at h
  induction h with
  | here p => subst same; exact .next (.here _)
  | next rest ih => exact .next (ih same)

@[simp] theorem pathRet {value : α} {dids} {q : Prog Op Resp α} :
    Path (.ret value) dids q ↔ dids = [] ∧ q = .ret value := by
  constructor
  · intro h; cases h; exact ⟨rfl,rfl⟩
  · rintro ⟨rfl,rfl⟩; exact .here _

theorem pathOp {o : Op} {next : Resp o → Prog Op Resp α} {dids q} :
    Path (.op o next) dids q ↔
      (dids = [] ∧ q = .op o next) ∨ ∃ r rest, dids = ⟨o,r⟩ :: rest ∧ Path (next r) rest q := by
  constructor
  · intro h
    cases h with
    | here => exact .inl ⟨rfl,rfl⟩
    | next rest => exact .inr ⟨_,_,rfl,rest⟩
  · rintro (⟨rfl,rfl⟩ | ⟨r,rest,rfl,h⟩)
    · exact .here _
    · exact .next h

/- A path to an answer does not end before an operation. -/
theorem pathReturned {o : Op} {next : Resp o → Prog Op Resp α} {dids value} (path : Path (.op o next) dids (.ret value)) :
    ∃ r rest, dids = ⟨o,r⟩ :: rest ∧ Path (next r) rest (.ret value) := by
  rcases pathOp.mp path with ⟨_,wrong⟩ | onward
  · contradiction
  · exact onward

/- Every operation the program may still execute, whatever the responses are. -/
def Prog.Every (P : Op → Prop) : Prog Op Resp α → Prop
  | .ret _ => True
  | .op o next => P o ∧ ∀ r, (next r).Every P

/- At most one operation of the kind P on any way through the program. -/
def Prog.AtMostOne (P : Op → Prop) : Prog Op Resp α → Prop
  | .ret _ => True
  | .op o next => (P o → ∀ r, (next r).Every fun o' => ¬ P o') ∧ ∀ r, (next r).AtMostOne P

/- Every way to the end of the program, judged by all it did. -/
def Prog.Ends (Q : List (Did Op Resp) → α → Prop) : Prog Op Resp α → List (Did Op Resp) → Prop
  | .ret value,done => Q done value
  | .op o next,done => ∀ r, (next r).Ends Q (done ++ [⟨o,r⟩])

@[simp] theorem endsRet {Q : List (Did Op Resp) → α → Prop} {value : α} {done} :
    (Prog.ret value : Prog Op Resp α).Ends Q done ↔ Q done value := Iff.rfl
@[simp] theorem endsOp {Q : List (Did Op Resp) → α → Prop} {o : Op} {next : Resp o → Prog Op Resp α} {done} :
    (Prog.op o next).Ends Q done ↔ ∀ r, (next r).Ends Q (done ++ [⟨o,r⟩]) := Iff.rfl

@[simp] theorem endsMap {Q : List (Did Op Resp) → β → Prop} {f : α → β} {p : Prog Op Resp α} {done} :
    (f <$> p).Ends Q done ↔ p.Ends (fun done value => Q done (f value)) done := by
  induction p generalizing done with
  | ret value => simp
  | op o next ih => simp only [mapOp,endsOp,ih]

theorem endsBind {Q : List (Did Op Resp) → β → Prop} {p : Prog Op Resp α} {k : α → Prog Op Resp β} {done} :
    (p >>= k).Ends Q done ↔ p.Ends (fun done value => (k value).Ends Q done) done := by
  induction p generalizing done with
  | ret value => simp
  | op o next ih => simp only [bindOp,endsOp,ih]

/- Two ways to go on that agree on all ends make the same program. -/
theorem bindEnds {p : Prog Op Resp α} {Q : α → Prop} {k l : α → Prog Op Resp β} {done : List (Did Op Resp)}
    (ends : p.Ends (fun _ => Q) done) (same : ∀ value, Q value → k value = l value) : p >>= k = p >>= l := by
  induction p generalizing done with
  | ret value => exact same value ends
  | op o next ih => exact congrArg (Prog.op o) (funext fun r => ih r (ends r))

theorem endsMono {Q Q' : List (Did Op Resp) → α → Prop} {p : Prog Op Resp α} {done}
    (weaker : ∀ done value, Q done value → Q' done value) (all : p.Ends Q done) : p.Ends Q' done := by
  induction p generalizing done with
  | ret value => exact weaker done value all
  | op o next ih => exact fun r => ih r (all r)

theorem endsAll {Q : List (Did Op Resp) → α → Prop} (all : ∀ done value, Q done value) (p : Prog Op Resp α) (done) :
    p.Ends Q done := by
  induction p generalizing done with
  | ret value => exact all done value
  | op o next ih => exact fun r => ih r _

theorem endsBoth {Q Q' : List (Did Op Resp) → α → Prop} {p : Prog Op Resp α} {done} (left : p.Ends Q done)
    (right : p.Ends Q' done) : p.Ends (fun done value => Q done value ∧ Q' done value) done := by
  induction p generalizing done with
  | ret value => exact ⟨left,right⟩
  | op o next ih => exact fun r => ih r (left r) (right r)

/- What was done before is still there in the end. -/
theorem endsKept {d : Did Op Resp} {p : Prog Op Resp α} {done} (there : d ∈ done) : p.Ends (fun done _ => d ∈ done) done := by
  induction p generalizing done with
  | ret value => exact there
  | op o next ih => exact fun r => ih r (List.mem_append_left _ there)

@[simp] theorem endsIte {Q : List (Did Op Resp) → α → Prop} {c : Prop} [Decidable c]
    {x y : Prog Op Resp α} {done} :
    (if c then x else y).Ends Q done ↔ (c → x.Ends Q done) ∧ (¬ c → y.Ends Q done) := by
  split <;> simp [*]

theorem endsOnPath {Q : List (Did Op Resp) → α → Prop} {p : Prog Op Resp α} {dids value} {done}
    (all : p.Ends Q done) (path : Path p dids (.ret value)) : Q (done ++ dids) value := by
  induction p generalizing done dids with
  | ret value' =>
    obtain ⟨rfl,same⟩ := pathRet.mp path
    cases same
    simpa using all
  | op o next ih =>
    obtain ⟨r,rest,rfl,later⟩ := pathReturned path
    simpa using ih r (all r) later

/- The operations of the program come in the order of their rank. -/
def Prog.Rising (rank : Op → Nat) : Prog Op Resp α → Nat → Prop
  | .ret _,_ => True
  | .op o next,low => low ≤ rank o ∧ ∀ r, (next r).Rising rank (rank o + 1)

@[simp] theorem risingRet {rank : Op → Nat} {value : α} {low} :
    (Prog.ret value : Prog Op Resp α).Rising rank low := trivial
@[simp] theorem risingOp {rank : Op → Nat} {o : Op} {next : Resp o → Prog Op Resp α} {low} :
    (Prog.op o next).Rising rank low ↔ low ≤ rank o ∧ ∀ r, (next r).Rising rank (rank o + 1) := Iff.rfl

@[simp] theorem risingMap {rank : Op → Nat} {f : α → β} {p : Prog Op Resp α} {low} :
    (f <$> p).Rising rank low ↔ p.Rising rank low := by
  induction p generalizing low with
  | ret value => simp
  | op o next ih => simp only [mapOp,risingOp,ih]

@[simp] theorem risingIte {rank : Op → Nat} {c : Prop} [Decidable c] {x y : Prog Op Resp α} {low} :
    (if c then x else y).Rising rank low ↔ (c → x.Rising rank low) ∧ (¬ c → y.Rising rank low) := by
  split <;> simp [*]

theorem risingEvery {rank : Op → Nat} {p : Prog Op Resp α} {low k : Nat} (rising : p.Rising rank low)
    (less : k < low) : p.Every fun o => ¬ rank o = k := by
  induction p generalizing low with
  | ret value => trivial
  | op o next ih =>
    obtain ⟨here,later⟩ := rising
    exact ⟨by omega,fun r => ih r (later r) (by omega)⟩

theorem risingAtMostOne {rank : Op → Nat} {p : Prog Op Resp α} {low : Nat} (rising : p.Rising rank low)
    (k : Nat) : p.AtMostOne fun o => rank o = k := by
  induction p generalizing low with
  | ret value => trivial
  | op o next ih =>
    obtain ⟨_,later⟩ := rising
    exact ⟨fun here r => risingEvery (later r) (by omega),fun r => ih r (later r)⟩

theorem everyOnPath {P : Op → Prop} {p q : Prog Op Resp α} {dids} (path : Path p dids q)
    (all : p.Every P) : (∀ d ∈ dids, P d.1) ∧ q.Every P := by
  induction path with
  | here => exact ⟨by simp,all⟩
  | next rest ih =>
    obtain ⟨done,later⟩ := ih (all.2 _)
    exact ⟨List.forall_mem_cons.mpr ⟨all.1,done⟩,later⟩

theorem atMostOneOnPath {P : Op → Prop} {p q : Prog Op Resp α} {dids} (path : Path p dids q)
    (once : p.AtMostOne P) {d} (member : d ∈ dids) (hit : P d.1) : q.Every fun o => ¬ P o := by
  induction path with
  | here => simp at member
  | next rest ih =>
    rcases List.mem_cons.mp member with rfl | later
    · exact (everyOnPath rest (once.1 hit _)).2
    · exact ih (once.2 _) later

/- Every operation the program may execute, judged by what it did before. -/
def Prog.EveryAfter (P : List (Did Op Resp) → Op → Prop) : Prog Op Resp α → List (Did Op Resp) → Prop
  | .ret _,_ => True
  | .op o next,done => P done o ∧ ∀ r, (next r).EveryAfter P (done ++ [⟨o,r⟩])

@[simp] theorem everyAfterRet {P : List (Did Op Resp) → Op → Prop} {value : α} {done} :
    (Prog.ret value : Prog Op Resp α).EveryAfter P done := trivial
@[simp] theorem everyAfterOp {P : List (Did Op Resp) → Op → Prop} {o : Op}
    {next : Resp o → Prog Op Resp α} {done} : (Prog.op o next).EveryAfter P done ↔
      P done o ∧ ∀ r, (next r).EveryAfter P (done ++ [⟨o,r⟩]) := Iff.rfl

@[simp] theorem everyAfterMap {P : List (Did Op Resp) → Op → Prop} {f : α → β} {p : Prog Op Resp α} {done} :
    (f <$> p).EveryAfter P done ↔ p.EveryAfter P done := by
  induction p generalizing done with
  | ret value => simp
  | op o next ih => simp only [mapOp,everyAfterOp,ih]

theorem everyAfterBind {P : List (Did Op Resp) → Op → Prop} {p : Prog Op Resp α} {k : α → Prog Op Resp β}
    {done} (first : p.EveryAfter P done) (second : ∀ value later, (k value).EveryAfter P (done ++ later)) :
    (p >>= k).EveryAfter P done := by
  induction p generalizing done with
  | ret value => simpa using second value []
  | op o next ih =>
    refine ⟨first.1,fun r => ih r (first.2 r) fun value later => ?_⟩
    have rest := second value (⟨o,r⟩ :: later)
    rwa [List.append_cons] at rest

@[simp] theorem everyAfterIte {P : List (Did Op Resp) → Op → Prop} {c : Prop} [Decidable c]
    {x y : Prog Op Resp α} {done} :
    (if c then x else y).EveryAfter P done ↔ (c → x.EveryAfter P done) ∧ (¬ c → y.EveryAfter P done) := by
  split <;> simp [*]

theorem everyAfterOnPath {P : List (Did Op Resp) → Op → Prop} {p q : Prog Op Resp α} {dids}
    (path : Path p dids q) {done} (all : p.EveryAfter P done) : q.EveryAfter P (done ++ dids) := by
  induction path generalizing done with
  | here => simpa using all
  | next rest ih => simpa using ih (all.2 _)

theorem everyAfterBindEnds {P : List (Did Op Resp) → Op → Prop} {p : Prog Op Resp α}
    {k : α → Prog Op Resp β} {done} (first : p.EveryAfter P done)
    (second : p.Ends (fun done value => (k value).EveryAfter P done) done) : (p >>= k).EveryAfter P done := by
  induction p generalizing done with
  | ret value => exact second
  | op o next ih => exact ⟨first.1,fun r => ih r (first.2 r) (second r)⟩

theorem everyAfterOfEvery {P : List (Did Op Resp) → Op → Prop} {Q : Op → Prop} {p : Prog Op Resp α}
    (enough : ∀ done o, Q o → P done o) (all : p.Every Q) (done : List (Did Op Resp)) : p.EveryAfter P done := by
  induction p generalizing done with
  | ret value => trivial
  | op o next ih => exact ⟨enough done o all.1,fun r => ih r (all.2 r) _⟩

/- Both at once: every operation and every end, judged by what the program did before. -/
def Prog.Along (P : List (Did Op Resp) → Op → Prop) (Q : List (Did Op Resp) → α → Prop) :
    Prog Op Resp α → List (Did Op Resp) → Prop
  | .ret value,done => Q done value
  | .op o next,done => P done o ∧ ∀ r, (next r).Along P Q (done ++ [⟨o,r⟩])

@[simp] theorem alongRet {P : List (Did Op Resp) → Op → Prop} {Q : List (Did Op Resp) → α → Prop} {value : α} {done} :
    (Prog.ret value : Prog Op Resp α).Along P Q done ↔ Q done value := Iff.rfl
@[simp] theorem alongOp {P : List (Did Op Resp) → Op → Prop} {Q : List (Did Op Resp) → α → Prop} {o : Op}
    {next : Resp o → Prog Op Resp α} {done} : (Prog.op o next).Along P Q done ↔
      P done o ∧ ∀ r, (next r).Along P Q (done ++ [⟨o,r⟩]) := Iff.rfl

@[simp] theorem alongIte {P : List (Did Op Resp) → Op → Prop} {Q : List (Did Op Resp) → α → Prop} {c : Prop}
    [Decidable c] {x y : Prog Op Resp α} {done} :
    (if c then x else y).Along P Q done ↔ (c → x.Along P Q done) ∧ (¬ c → y.Along P Q done) := by
  split <;> simp [*]

theorem alongBind {P : List (Did Op Resp) → Op → Prop} {Q : List (Did Op Resp) → β → Prop} {p : Prog Op Resp α}
    {k : α → Prog Op Resp β} {done} :
    (p >>= k).Along P Q done ↔ p.Along P (fun done value => (k value).Along P Q done) done := by
  induction p generalizing done with
  | ret value => simp
  | op o next ih => simp only [bindOp,alongOp,ih]

theorem alongMono {P : List (Did Op Resp) → Op → Prop} {Q Q' : List (Did Op Resp) → α → Prop} {p : Prog Op Resp α}
    {done} (weaker : ∀ done value, Q done value → Q' done value) (all : p.Along P Q done) : p.Along P Q' done := by
  induction p generalizing done with
  | ret value => exact weaker done value all
  | op o next ih => exact ⟨all.1,fun r => ih r (all.2 r)⟩

theorem alongEvery {P : List (Did Op Resp) → Op → Prop} {Q : List (Did Op Resp) → α → Prop} {p : Prog Op Resp α}
    {done} (all : p.Along P Q done) : p.EveryAfter P done := by
  induction p generalizing done with
  | ret value => trivial
  | op o next ih => exact ⟨all.1,fun r => ih r (all.2 r)⟩

theorem alongEnds {P : List (Did Op Resp) → Op → Prop} {Q : List (Did Op Resp) → α → Prop} {p : Prog Op Resp α}
    {done} (all : p.Along P Q done) : p.Ends Q done := by
  induction p generalizing done with
  | ret value => exact all
  | op o next ih => exact fun r => ih r (all.2 r)

theorem alongOf {P : List (Did Op Resp) → Op → Prop} {Q : List (Did Op Resp) → α → Prop} {p : Prog Op Resp α} {done}
    (every : p.EveryAfter P done) (ends : p.Ends Q done) : p.Along P Q done := by
  induction p generalizing done with
  | ret value => exact ends
  | op o next ih => exact ⟨every.1,fun r => ih r (every.2 r) (ends r)⟩

theorem alongOnPath {P : List (Did Op Resp) → Op → Prop} {Q : List (Did Op Resp) → α → Prop} {p q : Prog Op Resp α}
    {dids} (path : Path p dids q) {done} (all : p.Along P Q done) :
    (∀ before d after, dids = before ++ d :: after → P (done ++ before) d.1) ∧ q.Along P Q (done ++ dids) := by
  induction path generalizing done with
  | here => exact ⟨fun before d after wrong => by simp at wrong,by simpa using all⟩
  | next rest ih =>
    obtain ⟨later,last⟩ := ih (all.2 _)
    refine ⟨fun before d after same => ?_,by simpa using last⟩
    cases before with
    | nil =>
      cases (List.cons.inj same).1
      simpa using all.1
    | cons first before =>
      obtain ⟨rfl,tail⟩ := List.cons.inj same
      simpa using later before d after tail

/- A complete pass through a program, among other things that were done. -/
def Ran (p : Prog Op Resp α) (value : α) (done : List (Did Op Resp)) : Prop :=
  ∃ before pass after, done = before ++ pass ++ after ∧ Path p pass (.ret value)

theorem ranAppend {p : Prog Op Resp α} {value : α} {done} (ran : Ran p value done) (later : List (Did Op Resp)) :
    Ran p value (done ++ later) := by
  obtain ⟨before,pass,after,rfl,path⟩ := ran
  exact ⟨before,pass,after ++ later,by simp,path⟩

theorem endsRan (p : Prog Op Resp α) (done : List (Did Op Resp)) : p.Ends (fun done value => Ran p value done) done := by
  suffices all : ∀ (q : Prog Op Resp α) pass, (∀ dids value, Path q dids (.ret value) → Path p (pass ++ dids) (.ret value)) →
      q.Ends (fun done value => Ran p value done) (done ++ pass) by
    simpa using all p [] fun _ _ path => path
  intro q
  induction q with
  | ret value =>
    intro pass whole
    refine ⟨done,pass,[],by simp,?_⟩
    simpa using whole [] value (.here _)
  | op o next ih =>
    intro pass whole r
    have step := ih r (pass ++ [⟨o,r⟩]) fun dids value path => by simpa using whole _ value (.next path)
    simpa using step

/- A program only adds to what was done. -/
theorem endsLonger (p : Prog Op Resp α) (done : List (Did Op Resp)) :
    p.Ends (fun done' _ => ∃ later, done' = done ++ later) done := by
  induction p generalizing done with
  | ret value => exact ⟨[],by simp⟩
  | op o next ih =>
    intro r
    refine endsMono (fun done' value longer => ?_) (ih r (done ++ [⟨o,r⟩]))
    obtain ⟨later,rfl⟩ := longer
    exact ⟨⟨o,r⟩ :: later,by simp⟩

@[simp] theorem everyRet {P : Op → Prop} {value : α} : (Prog.ret value : Prog Op Resp α).Every P := trivial
@[simp] theorem everyOp {P : Op → Prop} {o : Op} {next : Resp o → Prog Op Resp α} :
    (Prog.op o next).Every P ↔ P o ∧ ∀ r, (next r).Every P := Iff.rfl
@[simp] theorem everyMap {P : Op → Prop} {f : α → β} {p : Prog Op Resp α} :
    (f <$> p).Every P ↔ p.Every P := by
  induction p with
  | ret value => simp
  | op o next ih => simp only [mapOp,everyOp,ih]

@[simp] theorem everyIte {P : Op → Prop} {c : Prop} [Decidable c] {x y : Prog Op Resp α} :
    (if c then x else y).Every P ↔ (c → x.Every P) ∧ (¬ c → y.Every P) := by
  split <;> simp [*]

theorem everyBind {P : Op → Prop} {p : Prog Op Resp α} {k : α → Prog Op Resp β} (first : p.Every P)
    (second : ∀ value, (k value).Every P) : (p >>= k).Every P := by
  induction p with
  | ret value => exact second value
  | op o next ih => exact ⟨first.1,fun r => ih r (first.2 r)⟩

theorem everyMono {P Q : Op → Prop} {p : Prog Op Resp α} (weaker : ∀ o, P o → Q o) (all : p.Every P) : p.Every Q := by
  induction p with
  | ret value => trivial
  | op o next ih => exact ⟨weaker o all.1,fun r => ih r (all.2 r)⟩

/- What operations of one kind leave alone, a program of them leaves alone. -/
theorem runKeeps {τ : Type} {exec : (o : Op) → σ → Resp o × σ} (f : σ → τ) {P : Op → Prop}
    (same : ∀ o, P o → ∀ s, f (exec o s).2 = f s) {p : Prog Op Resp α} (all : p.Every P) (s : σ) :
    f (p.run exec s).2 = f s := by
  induction p generalizing s with
  | ret value => rfl
  | op o next ih => exact (ih _ (all.2 _) _).trans (same o all.1 s)

/- What a program does on its own. -/
def Prog.trace (exec : (o : Op) → σ → Resp o × σ) : Prog Op Resp α → σ → List (Did Op Resp)
  | .ret _,_ => []
  | .op o next,s => ⟨o,(exec o s).1⟩ :: (next (exec o s).1).trace exec (exec o s).2

theorem traceBind (exec : (o : Op) → σ → Resp o × σ) (p : Prog Op Resp α) (k : α → Prog Op Resp β) (s : σ) :
    (p >>= k).trace exec s = p.trace exec s ++ (k (p.run exec s).1).trace exec (p.run exec s).2 := by
  induction p generalizing s with
  | ret value => rfl
  | op o next ih => exact congrArg (_ :: ·) (ih _ _)

theorem traceEvery {exec : (o : Op) → σ → Resp o × σ} {P : Op → Prop} {p : Prog Op Resp α} (all : p.Every P) (s : σ) :
    ∀ d ∈ p.trace exec s, P d.1 := by
  induction p generalizing s with
  | ret value => simp [Prog.trace]
  | op o next ih =>
    intro d member
    rcases List.mem_cons.mp member with rfl | rest
    · exact all.1
    · exact ih _ (all.2 _) _ d rest

/- Alone, a program takes one of its ways. -/
theorem tracePath (exec : (o : Op) → σ → Resp o × σ) (p : Prog Op Resp α) (s : σ) :
    Path p (p.trace exec s) (.ret (p.run exec s).1) := by
  induction p generalizing s with
  | ret value => exact .here _
  | op o next ih => exact .next (ih _ _)

theorem runEnds {exec : (o : Op) → σ → Resp o × σ} {Q : α → Prop} {p : Prog Op Resp α} (all : p.Ends (fun _ => Q) [])
    (s : σ) : Q (p.run exec s).1 := endsOnPath all (tracePath exec p s)

theorem pathIte {c : Prop} [Decidable c] {x y q : Prog Op Resp α} {dids}
    (path : Path (if c then x else y) dids q) : c ∧ Path x dids q ∨ ¬ c ∧ Path y dids q := by
  by_cases h : c
  · rw [if_pos h] at path; exact .inl ⟨h,path⟩
  · rw [if_neg h] at path; exact .inr ⟨h,path⟩

theorem pathMap {f : α → β} {p : Prog Op Resp α} {dids q} (h : Path (f <$> p) dids q) :
    ∃ q', q = f <$> q' ∧ Path p dids q' := by
  induction p generalizing dids with
  | ret value =>
    obtain ⟨rfl,rfl⟩ := pathRet.mp h
    exact ⟨.ret value,rfl,.here _⟩
  | op o next ih =>
    obtain ⟨rfl,rfl⟩ | ⟨r,rest,rfl,later⟩ := pathOp.mp h
    · exact ⟨.op o next,rfl,.here _⟩
    · obtain ⟨q',same,path⟩ := ih r later
      exact ⟨q',same,.next path⟩

theorem pathMapRet {f : α → β} {p : Prog Op Resp α} {dids b} (h : Path (f <$> p) dids (.ret b)) :
    ∃ a, b = f a ∧ Path p dids (.ret a) := by
  obtain ⟨q,same,path⟩ := pathMap h
  cases q with
  | ret a => exact ⟨a,by simpa using same,path⟩
  | op o next => simp at same

/- A program over fewer operations as a part of one over more. -/
section Parts
variable {Op' : Type} {Resp' : Op' → Type}

def Prog.embed (lift : Op → Op') (back : (o : Op) → Resp' (lift o) → Resp o) : Prog Op Resp α → Prog Op' Resp' α
  | .ret value => .ret value
  | .op o next => .op (lift o) fun r => (next (back o r)).embed lift back

variable {lift : Op → Op'} {back : (o : Op) → Resp' (lift o) → Resp o}

@[simp] theorem embedRet (value : α) : (Prog.ret value : Prog Op Resp α).embed lift back = .ret value := rfl
@[simp] theorem embedOp (o : Op) (next : Resp o → Prog Op Resp α) : (Prog.op o next).embed lift back =
    .op (lift o) fun r => (next (back o r)).embed lift back := rfl
@[simp] theorem embedIte {c : Prop} [Decidable c] {x y : Prog Op Resp α} :
    (if c then x else y).embed lift back = if c then x.embed lift back else y.embed lift back :=
  apply_ite _ _ _ _

@[simp] theorem embedBind (p : Prog Op Resp α) (k : α → Prog Op Resp β) : (p >>= k).embed lift back =
    p.embed lift back >>= fun value => (k value).embed lift back := by
  induction p with
  | ret value => rfl
  | op o next ih => simp only [bindOp,embedOp,ih]

theorem everyEmbed {P : Op' → Prop} (all : ∀ o, P (lift o)) (p : Prog Op Resp α) :
    (p.embed lift back).Every P := by
  induction p with
  | ret value => trivial
  | op o next ih => exact ⟨all o,fun r => ih _⟩

theorem embedEvery {P : Op' → Prop} {Q : Op → Prop} {p : Prog Op Resp α} (lifts : ∀ o, Q o → P (lift o))
    (all : p.Every Q) : (p.embed lift back).Every P := by
  induction p with
  | ret value => trivial
  | op o next ih => exact ⟨lifts o all.1,fun r => ih _ (all.2 _)⟩

end Parts

end Programs

def Prog.result {Op : Type} {Resp : Op → Type} {α : Type} : Prog Op Resp α → Option α
  | .ret value => some value
  | .op _ _ => none

section Pools
variable {Op : Type} {Resp : Op → Type} {Call Env σ α : Type}

/- A machine gives the operations their meaning. An operation that is not ready
blocks its task. Some environment steps end every task that has not returned. -/
structure Machine (Op : Type) (Resp : Op → Type) (Call Env σ α : Type) where
  program : Nat → Call → Prog Op Resp α
  exec : (o : Op) → σ → Resp o × σ
  ready : Op → σ → Bool
  env : Env → σ → σ
  kills : Env → Bool

structure Task (Op : Type) (Resp : Op → Type) (Call α : Type) where
  call : Call
  prog : Prog Op Resp α
  alive : Bool

structure Event (Op : Type) (Resp : Op → Type) (Call σ : Type) where
  pos : Nat
  task : Nat
  call : Call
  before : σ
  did : Did Op Resp

structure Pool (Op : Type) (Resp : Op → Type) (Call σ α : Type) where
  shared : σ
  tasks : List (Task Op Resp Call α)
  log : List (Event Op Resp Call σ)

inductive Act (Call Env : Type) where
  | start (c : Call)
  | advance (i : Nat)
  | env (e : Env)
  deriving DecidableEq

def Task.kill (t : Task Op Resp Call α) : Task Op Resp Call α :=
  match t.prog with
  | .ret _ => t
  | .op _ _ => { t with alive := false }

@[simp] theorem killCall (t : Task Op Resp Call α) : t.kill.call = t.call := by
  unfold Task.kill; split <;> rfl
@[simp] theorem killProg (t : Task Op Resp Call α) : t.kill.prog = t.prog := by
  unfold Task.kill; split <;> rfl

theorem killStops {t : Task Op Resp Call α} {c o next} : t.kill ≠ ⟨c,.op o next,true⟩ := by
  obtain ⟨c',prog,alive⟩ := t
  cases prog <;> simp [Task.kill]

namespace Machine
variable (m : Machine Op Resp Call Env σ α)

def initial (s : σ) : Pool Op Resp Call σ α := ⟨s,[],[]⟩

def started (w : Pool Op Resp Call σ α) (c : Call) : Pool Op Resp Call σ α :=
  { w with tasks := w.tasks ++ [⟨c,m.program w.tasks.length c,true⟩] }

def happening (w : Pool Op Resp Call σ α) (i : Nat) (c : Call) (o : Op) : Event Op Resp Call σ :=
  ⟨w.log.length,i,c,w.shared,⟨o,(m.exec o w.shared).1⟩⟩

def performed (w : Pool Op Resp Call σ α) (i : Nat) (c : Call) (o : Op)
    (next : Resp o → Prog Op Resp α) : Pool Op Resp Call σ α :=
  { shared := (m.exec o w.shared).2
    tasks := w.tasks.set i ⟨c,next (m.exec o w.shared).1,true⟩
    log := w.log ++ [m.happening w i c o] }

def disturbed (w : Pool Op Resp Call σ α) (e : Env) : Pool Op Resp Call σ α :=
  { w with
    shared := m.env e w.shared
    tasks := if m.kills e then w.tasks.map Task.kill else w.tasks }

def step (w : Pool Op Resp Call σ α) : Act Call Env → Option (Pool Op Resp Call σ α)
  | .start c => some (m.started w c)
  | .advance i => match w.tasks[i]? with
    | some ⟨c,.op o next,true⟩ => if m.ready o w.shared then some (m.performed w i c o next) else none
    | _ => none
  | .env e => some (m.disturbed w e)

/- What an advancing step can be, said once. -/
theorem advanceCases {m : Machine Op Resp Call Env σ α} {w w' : Pool Op Resp Call σ α} {i}
    (h : m.step w (.advance i) = some w') :
    ∃ c o next, w.tasks[i]? = some ⟨c,.op o next,true⟩ ∧ m.ready o w.shared = true ∧
      w' = m.performed w i c o next := by
  simp only [step] at h
  split at h <;> try contradiction
  rename_i c o next found
  split at h <;> try contradiction
  exact ⟨c,o,next,found,by assumption,(Option.some.inj h).symm⟩

/- The pools of the runs all of whose steps meet the condition `ok`. -/
inductive Reach (ok : Pool Op Resp Call σ α → Act Call Env → Prop) (s : σ) :
    Pool Op Resp Call σ α → Prop where
  | initial : Reach ok s (Machine.initial s)
  | step {w a w'} (before : Reach ok s w) (meets : ok w a) (taken : m.step w a = some w') :
      Reach ok s w'

def run (ok : Pool Op Resp Call σ α → Act Call Env → Bool) (w : Pool Op Resp Call σ α) :
    List (Act Call Env) → Option (Pool Op Resp Call σ α)
  | [] => some w
  | a :: rest => if ok w a then (m.step w a).bind fun w' => run ok w' rest else none

variable {m}
variable {ok : Pool Op Resp Call σ α → Act Call Env → Prop} {s : σ}

theorem reachRun {okay : Pool Op Resp Call σ α → Act Call Env → Bool}
    (sound : ∀ w a, okay w a = true → ok w a) {w acts w'} (reach : m.Reach ok s w)
    (ran : m.run okay w acts = some w') : m.Reach ok s w' := by
  induction acts generalizing w with
  | nil => cases Option.some.inj ran; exact reach
  | cons a rest ih =>
    simp only [run] at ran
    split at ran <;> try contradiction
    rename_i meets
    obtain ⟨v,taken,later⟩ := Option.bind_eq_some_iff.mp ran
    exact ih (.step reach (sound w a meets) taken) later

/- A concrete run that ends in a pool with the property. -/
theorem reachWith (ok : Pool Op Resp Call σ α → Act Call Env → Prop) (okay : Pool Op Resp Call σ α → Act Call Env → Bool)
    (sound : ∀ w a, okay w a = true → ok w a) (acts : List (Act Call Env))
    {P : Pool Op Resp Call σ α → Bool}
    (holds : (m.run okay (Machine.initial s) acts).any P = true) :
    ∃ w, m.Reach ok s w ∧ P w = true := by
  obtain ⟨w,ran,good⟩ := (Option.any_eq_true _ _).mp holds
  exact ⟨w,reachRun sound .initial ran,good⟩

theorem reachPerformed {w : Pool Op Resp Call σ α} {i c o next} (before : m.Reach ok s w)
    (meets : ok w (.advance i)) (found : w.tasks[i]? = some ⟨c,.op o next,true⟩)
    (ready : m.ready o w.shared = true) : m.Reach ok s (m.performed w i c o next) :=
  .step before meets (by simp only [step,found,ready,if_pos])

/- The invariant rule: one obligation for each kind of step, with the pool before it
reachable, so that earlier invariants can be used. -/
theorem invariant {I : Pool Op Resp Call σ α → Prop} (first : I (Machine.initial s))
    (onStart : ∀ w c, m.Reach ok s w → ok w (.start c) → I w → I (m.started w c))
    (onOp : ∀ w i c o next, m.Reach ok s w → ok w (.advance i) →
      w.tasks[i]? = some ⟨c,.op o next,true⟩ → m.ready o w.shared = true →
      I w → I (m.performed w i c o next))
    (onEnv : ∀ w e, m.Reach ok s w → ok w (.env e) → I w → I (m.disturbed w e))
    {w} (reach : m.Reach ok s w) : I w := by
  induction reach with
  | initial => exact first
  | @step w a w' before meets taken ih =>
    cases a with
    | start c => cases Option.some.inj taken; exact onStart w c before meets ih
    | advance i =>
      obtain ⟨c,o,next,found,ready,rfl⟩ := advanceCases taken
      exact onOp w i c o next before meets found ready ih
    | env e => cases Option.some.inj taken; exact onEnv w e before meets ih

end Machine

def Pool.eventsOf (w : Pool Op Resp Call σ α) (i : Nat) : List (Event Op Resp Call σ) :=
  w.log.filter fun e => e.task = i

def Pool.didsOf (w : Pool Op Resp Call σ α) (i : Nat) : List (Did Op Resp) :=
  (w.eventsOf i).map Event.did

/- What the task of an event had done before it. -/
def Pool.past (w : Pool Op Resp Call σ α) (e : Event Op Resp Call σ) : List (Event Op Resp Call σ) :=
  w.log.filter fun a => a.task = e.task ∧ a.pos < e.pos

/- What all tasks had done before an event. -/
def Pool.earlier (w : Pool Op Resp Call σ α) (e : Event Op Resp Call σ) : List (Event Op Resp Call σ) :=
  w.log.filter fun a => a.pos < e.pos

def Pool.calls (w : Pool Op Resp Call σ α) : List Call := w.tasks.map Task.call

def Pool.Answered (w : Pool Op Resp Call σ α) (i : Nat) (c : Call) (value : α) : Prop :=
  ∃ t, w.tasks[i]? = some t ∧ t.call = c ∧ t.prog = .ret value

def Pool.answer (w : Pool Op Resp Call σ α) (i : Nat) : Option (Call × Option α) :=
  w.tasks[i]?.map fun t => (t.call,t.prog.result)

theorem answered {w : Pool Op Resp Call σ α} {i c value} (h : w.answer i = some (c,some value)) :
    w.Answered i c value := by
  simp only [Pool.answer,Option.map_eq_some_iff,Prod.mk.injEq] at h
  obtain ⟨t,found,call,result⟩ := h
  refine ⟨t,found,call,?_⟩
  cases same : t.prog with
  | ret b => rw [same] at result; exact congrArg Prog.ret (Option.some.inj result)
  | op o next => rw [same] at result; contradiction

/- The operation that the task is about to execute. -/
def Pool.next (w : Pool Op Resp Call σ α) (i : Nat) : Option Op :=
  match w.tasks[i]? with
  | some ⟨_,.op o _,true⟩ => some o
  | _ => none

theorem nextIs {w : Pool Op Resp Call σ α} {i c o} {next : Resp o → Prog Op Resp α}
    (found : w.tasks[i]? = some ⟨c,.op o next,true⟩) : w.next i = some o := by
  rw [Pool.next,found]

/- A task that still has operations to execute. -/
def Pool.Running (w : Pool Op Resp Call σ α) (i : Nat) : Prop :=
  ∃ c o next, w.tasks[i]? = some ⟨c,.op o next,true⟩

def Pool.Idle (w : Pool Op Resp Call σ α) : Prop :=
  ∀ t ∈ w.tasks, t.alive = true → ∃ value, t.prog = .ret value

theorem callAt {w : Pool Op Resp Call σ α} {i : Nat} {t : Task Op Resp Call α} (found : w.tasks[i]? = some t) :
    w.calls[i]? = some t.call := by
  rw [Pool.calls,List.getElem?_map,found]; rfl

theorem didsOfMember {w : Pool Op Resp Call σ α} {i d} :
    d ∈ w.didsOf i ↔ ∃ e ∈ w.log, e.task = i ∧ e.did = d := by
  simp [Pool.didsOf,Pool.eventsOf,and_assoc]

namespace Machine
variable {m : Machine Op Resp Call Env σ α}
variable {ok : Pool Op Resp Call σ α → Act Call Env → Prop} {s : σ} {w : Pool Op Resp Call σ α}

/- The calls in the order they started: only a start adds to them. -/
theorem callsInduction {P : List Call → Prop} (none : P [])
    (more : ∀ w c, m.Reach ok s w → ok w (.start c) → P w.calls → P (w.calls ++ [c]))
    (reach : m.Reach ok s w) : P w.calls := by
  refine invariant (I := fun w => P w.calls) none ?_ ?_ ?_ reach
  · intro w c before meets ih
    simpa [Pool.calls,started] using more w c before meets ih
  · intro w i c o next _ _ found _ ih
    have same : (m.performed w i c o next).calls = w.calls := by
      have bound := (List.getElem?_eq_some_iff.mp found).1
      refine List.ext_getElem (by simp [Pool.calls,performed]) fun n h _ => ?_
      have call := (List.getElem?_eq_some_iff.mp found).2
      by_cases here : i = n
      · subst here; simp [Pool.calls,performed,call]
      · simp [Pool.calls,performed,List.getElem_set_ne here]
    rwa [same]
  · intro w e _ _ ih
    have same : (m.disturbed w e).calls = w.calls := by
      simp only [Pool.calls,disturbed]
      split <;> simp [Function.comp_def]
    rwa [same]

@[simp] theorem didsPerformed (w : Pool Op Resp Call σ α) (i c o next j) :
    (m.performed w i c o next).didsOf j =
      w.didsOf j ++ if i = j then [⟨o,(m.exec o w.shared).1⟩] else [] := by
  by_cases same : i = j <;> simp [performed,happening,Pool.didsOf,Pool.eventsOf,same]

theorem positions (reach : m.Reach ok s w) {e : Event Op Resp Call σ} {n : Nat} :
    w.log[n]? = some e → e.pos = n := by
  revert e n
  refine invariant (I := fun w => ∀ {e : Event Op Resp Call σ} {n : Nat},
    w.log[n]? = some e → e.pos = n) ?_ ?_ ?_ ?_ reach
  · intro e n found; simp [initial] at found
  · intro w c _ _ ih; exact ih
  · intro w i c o next _ _ _ _ ih e n found
    rcases Nat.lt_trichotomy n w.log.length with low | rfl | high
    · rw [performed,List.getElem?_append_left low] at found
      exact ih found
    · rw [performed,List.getElem?_concat_length] at found
      cases Option.some.inj found
      rfl
    · rw [performed,List.getElem?_eq_none (by simp; omega)] at found
      contradiction
  · intro w e _ _ ih; exact ih

theorem memPerformed {w : Pool Op Resp Call σ α} {i c o next} {e : Event Op Resp Call σ} :
    e ∈ (m.performed w i c o next).log ↔ e ∈ w.log ∨ e = m.happening w i c o := by
  simp [performed]

theorem happened {w : Pool Op Resp Call σ α} {i c o next} :
    m.happening w i c o ∈ (m.performed w i c o next).log := memPerformed.mpr (.inr rfl)

theorem stillThere {w : Pool Op Resp Call σ α} {i c o next} {e : Event Op Resp Call σ}
    (old : e ∈ w.log) : e ∈ (m.performed w i c o next).log := memPerformed.mpr (.inl old)

theorem atPosition (reach : m.Reach ok s w) {e} (member : e ∈ w.log) : w.log[e.pos]? = some e := by
  obtain ⟨n,found⟩ := List.getElem?_of_mem member
  rw [positions reach found]
  exact found

theorem olderPosition (reach : m.Reach ok s w) {e} (member : e ∈ w.log) : e.pos < w.log.length :=
  (List.getElem?_eq_some_iff.mp (atPosition reach member)).1

theorem samePosition (reach : m.Reach ok s w) {e e'} (left : e ∈ w.log) (right : e' ∈ w.log)
    (same : e.pos = e'.pos) : e = e' := by
  have found := atPosition reach left
  rw [same,atPosition reach right] at found
  exact (Option.some.inj found).symm

theorem increasing (reach : m.Reach ok s w) : w.log.Pairwise fun e e' => e.pos < e'.pos := by
  rw [List.pairwise_iff_getElem]
  intro i j hi hj less
  rw [positions reach (List.getElem?_eq_getElem hi),positions reach (List.getElem?_eq_getElem hj)]
  exact less

theorem eventsIncreasing (reach : m.Reach ok s w) (i : Nat) :
    (w.eventsOf i).Pairwise fun e e' => e.pos < e'.pos :=
  (increasing reach).sublist List.filter_sublist

/- Two operations of one task happened in the order of its program. -/
theorem didsInOrder (reach : m.Reach ok s w) {i j k : Nat} {d d'} (first : (w.didsOf i)[j]? = some d)
    (second : (w.didsOf i)[k]? = some d') (less : j < k) :
    ∃ e ∈ w.log, ∃ e' ∈ w.log, e.task = i ∧ e'.task = i ∧ e.did = d ∧ e'.did = d' ∧ e.pos < e'.pos := by
  rw [Pool.didsOf,List.getElem?_map,Option.map_eq_some_iff] at first second
  obtain ⟨e,found,rfl⟩ := first
  obtain ⟨e',found',rfl⟩ := second
  have member : ∀ a ∈ w.eventsOf i, a ∈ w.log ∧ a.task = i := by simp [Pool.eventsOf]
  obtain ⟨inside,task⟩ := member e (List.mem_of_getElem? found)
  obtain ⟨inside',task'⟩ := member e' (List.mem_of_getElem? found')
  obtain ⟨bound,here⟩ := List.getElem?_eq_some_iff.mp found
  obtain ⟨bound',there⟩ := List.getElem?_eq_some_iff.mp found'
  have order := List.pairwise_iff_getElem.mp (eventsIncreasing reach i) j k bound bound' less
  rw [here,there] at order
  exact ⟨e,inside,e',inside',task,task',rfl,rfl,order⟩

/- The moment of an event: a reachable pool in which its task is about to execute it,
whose history is what lies before it. -/
theorem moment (reach : m.Reach ok s w) {e} (member : e ∈ w.log) :
    ∃ v, m.Reach ok s v ∧ ok v (.advance e.task) ∧ v.shared = e.before ∧
      (∀ d, d ∈ v.log ↔ d ∈ w.log ∧ d.pos < e.pos) ∧
      e.did.2 = (m.exec e.did.1 e.before).1 ∧ m.ready e.did.1 e.before = true ∧
      ∃ next, v.tasks[e.task]? = some ⟨e.call,.op e.did.1 next,true⟩ := by
  induction reach with
  | initial => simp [initial] at member
  | @step w a w' before meets taken ih =>
    -- an older event: the new history only adds positions at its end
    have old : e ∈ w.log → (∀ d, d ∈ w'.log → d ∈ w.log ∨ w.log.length ≤ d.pos) →
        (∀ d ∈ w.log, d ∈ w'.log) → ∃ v, m.Reach ok s v ∧ ok v (.advance e.task) ∧
          v.shared = e.before ∧ (∀ d, d ∈ v.log ↔ d ∈ w'.log ∧ d.pos < e.pos) ∧
          e.did.2 = (m.exec e.did.1 e.before).1 ∧ m.ready e.did.1 e.before = true ∧
          ∃ next, v.tasks[e.task]? = some ⟨e.call,.op e.did.1 next,true⟩ := by
      intro inside grown kept
      obtain ⟨v,reach,meets,same,history,rest⟩ := ih inside
      refine ⟨v,reach,meets,same,fun d => (history d).trans ?_,rest⟩
      have bound := (List.getElem?_eq_some_iff.mp (atPosition before inside)).1
      constructor
      · rintro ⟨there,less⟩; exact ⟨kept d there,less⟩
      · rintro ⟨there,less⟩
        rcases grown d there with h | h
        · exact ⟨h,less⟩
        · omega
    cases a with
    | start c =>
      cases Option.some.inj taken
      exact old member (fun d h => .inl h) fun d h => h
    | env f =>
      cases Option.some.inj taken
      exact old member (fun d h => .inl h) fun d h => h
    | advance i =>
      obtain ⟨c,o,next,found,ready,rfl⟩ := advanceCases taken
      have there := member
      simp only [performed,List.mem_append,List.mem_singleton] at there
      rcases there with inside | rfl
      · refine old inside ?_ fun d h => List.mem_append_left _ h
        intro d h
        rcases List.mem_append.mp h with h | h
        · exact .inl h
        · cases List.mem_singleton.mp h; exact .inr (Nat.le_refl _)
      · refine ⟨w,before,meets,rfl,fun d => ?_,rfl,ready,next,found⟩
        simp only [performed,List.mem_append,List.mem_singleton]
        constructor
        · intro h
          exact ⟨.inl h,(List.getElem?_eq_some_iff.mp (atPosition before h)).1⟩
        · rintro ⟨h | rfl,less⟩
          · exact h
          · exact absurd less (Nat.lt_irrefl _)

theorem didIs {e : Event Op Resp Call σ} {o : Op} (op : e.did.1 = o)
    (resp : e.did.2 = (m.exec e.did.1 e.before).1) : e.did = ⟨o,(m.exec o e.before).1⟩ := by
  subst op
  rw [← resp]

/- An operation in the history got the response that its moment gives. -/
theorem responseIs (reach : m.Reach ok s w) {e} (member : e ∈ w.log) {o : Op} {r : Resp o} (did : e.did = ⟨o,r⟩) :
    r = (m.exec o e.before).1 := by
  obtain ⟨_,_,_,_,_,given,_⟩ := moment reach member
  have both := did.symm.trans (didIs (congrArg Sigma.fst did) given)
  exact eq_of_heq (Sigma.mk.inj both).2

/- The history belongs to the tasks: an event carries the call of its task. -/
theorem eventTask (reach : m.Reach ok s w) :
    ∀ e ∈ w.log, ∃ t, w.tasks[e.task]? = some t ∧ t.call = e.call := by
  refine invariant (I := fun w => ∀ e ∈ w.log, ∃ t, w.tasks[e.task]? = some t ∧ t.call = e.call)
    ?_ ?_ ?_ ?_ reach
  · intro e member; simp [initial] at member
  · intro w c _ _ ih e member
    obtain ⟨t,found,same⟩ := ih e member
    exact ⟨t,by rw [started,List.getElem?_append_left (List.getElem?_eq_some_iff.mp found).1]; exact found,same⟩
  · intro w i c o next _ _ found _ ih e member
    simp only [performed,List.mem_append,List.mem_singleton] at member ⊢
    have bound := (List.getElem?_eq_some_iff.mp found).1
    rcases member with old | rfl
    · obtain ⟨t,there,call⟩ := ih e old
      by_cases same : i = e.task
      · subst same
        cases Option.some.inj (found.symm.trans there)
        exact ⟨_,List.getElem?_set_self bound,call⟩
      · exact ⟨t,by rw [List.getElem?_set_ne same]; exact there,call⟩
    · exact ⟨_,List.getElem?_set_self bound,rfl⟩
  · intro w e _ _ ih d member
    obtain ⟨t,found,same⟩ := ih d member
    simp only [disturbed]
    split
    · exact ⟨t.kill,by rw [List.getElem?_map,found]; rfl,by simpa using same⟩
    · exact ⟨t,found,same⟩

/- Where nothing ends tasks, they stay alive. -/
theorem stayAlive (spared : ∀ e, m.kills e = false) (reach : m.Reach ok s w) : ∀ t ∈ w.tasks, t.alive = true := by
  refine invariant (I := fun w => ∀ t ∈ w.tasks, t.alive = true) ?_ ?_ ?_ ?_ reach
  · intro t member; simp [initial] at member
  · intro w c _ _ ih t member
    rcases List.mem_append.mp member with old | new
    · exact ih t old
    · cases List.mem_singleton.mp new
      rfl
  · intro w i c o next _ _ _ _ ih t member
    rcases List.mem_or_eq_of_mem_set member with old | rfl
    · exact ih t old
    · rfl
  · intro w e _ _ ih t member
    have same : (m.disturbed w e).tasks = w.tasks := by simp [disturbed,spared]
    rw [same] at member
    exact ih t member

/- No event can carry the index of a task that did not exist. -/
theorem nothingDone (reach : m.Reach ok s w) : w.didsOf w.tasks.length = [] := by
  rw [List.eq_nil_iff_forall_not_mem]
  intro d member
  obtain ⟨e,inside,same,_⟩ := didsOfMember.mp member
  obtain ⟨t,there,_⟩ := eventTask reach e inside
  exact absurd (List.getElem?_eq_some_iff.mp there).1 (by omega)

/- What a task did so far is a way through its program, up to what is left of it. -/
theorem taskPath (reach : m.Reach ok s w) {i t} (found : w.tasks[i]? = some t) :
    Path (m.program i t.call) (w.didsOf i) t.prog := by
  revert i t
  refine invariant (I := fun w => ∀ {i t}, w.tasks[i]? = some t →
    Path (m.program i t.call) (w.didsOf i) t.prog) ?_ ?_ ?_ ?_ reach
  · intro i t found; simp [initial] at found
  · intro w c before _ ih i t found
    rcases Nat.lt_trichotomy i w.tasks.length with low | rfl | high
    · rw [started,List.getElem?_append_left low] at found
      exact ih found
    · rw [started,List.getElem?_concat_length] at found
      cases Option.some.inj found
      have same : (m.started w c).didsOf w.tasks.length = [] := nothingDone before
      rw [same]
      exact .here _
    · rw [started,List.getElem?_eq_none (by simp; omega)] at found
      contradiction
  · intro w i c o next _ _ there _ ih j t found
    rw [didsPerformed]
    simp only [performed] at found
    by_cases same : i = j
    · subst same
      rw [List.getElem?_set_self (List.getElem?_eq_some_iff.mp there).1] at found
      cases Option.some.inj found
      rw [if_pos rfl]
      exact pathExtend (ih there) _
    · rw [List.getElem?_set_ne same] at found
      rw [if_neg same,List.append_nil]
      exact ih found
  · intro w e _ _ ih i t found
    simp only [disturbed] at found
    split at found
    · rw [List.getElem?_map,Option.map_eq_some_iff] at found
      obtain ⟨u,there,rfl⟩ := found
      rw [killCall,killProg]
      exact ih there
    · exact ih found

/- What running tasks have learned stays true: a step must keep what was learned before and
make the fact about its own operation true; an environment step may end the tasks instead. -/
section Learning
variable {Knows : σ → Did Op Resp → Prop}

theorem knownStarted (reach : m.Reach ok s w) (known : ∀ i, w.Running i → ∀ d ∈ w.didsOf i, Knows w.shared d)
    (c : Call) : ∀ i, (m.started w c).Running i → ∀ d ∈ (m.started w c).didsOf i, Knows w.shared d := by
  rintro i ⟨c',o,next,found⟩ d member
  rcases Nat.lt_trichotomy i w.tasks.length with low | rfl | high
  · rw [started,List.getElem?_append_left low] at found
    exact known i ⟨c',o,next,found⟩ d member
  · have same : (m.started w c).didsOf w.tasks.length = [] := nothingDone reach
    rw [same] at member
    cases member
  · rw [started,List.getElem?_eq_none (by simp; omega)] at found
    contradiction

theorem knownPerformed (known : ∀ i, w.Running i → ∀ d ∈ w.didsOf i, Knows w.shared d) {i c o next}
    (found : w.tasks[i]? = some ⟨c,.op o next,true⟩)
    (kept : ∀ d, Knows w.shared d → Knows (m.exec o w.shared).2 d)
    (new : Knows (m.exec o w.shared).2 ⟨o,(m.exec o w.shared).1⟩) :
    ∀ j, (m.performed w i c o next).Running j → ∀ d ∈ (m.performed w i c o next).didsOf j,
      Knows (m.exec o w.shared).2 d := by
  rintro j ⟨c',o',next',there⟩ d member
  simp only [performed] at there
  rw [didsPerformed] at member
  by_cases same : i = j
  · subst same
    rw [if_pos rfl] at member
    rcases List.mem_append.mp member with old | last
    · exact kept d (known i ⟨c,o,next,found⟩ d old)
    · cases List.mem_singleton.mp last
      exact new
  · rw [List.getElem?_set_ne same] at there
    rw [if_neg same,List.append_nil] at member
    exact kept d (known j ⟨c',o',next',there⟩ d member)

theorem knownDisturbed (known : ∀ i, w.Running i → ∀ d ∈ w.didsOf i, Knows w.shared d) {e : Env}
    (kept : m.kills e = true ∨ ∀ d, Knows w.shared d → Knows (m.env e w.shared) d) :
    ∀ i, (m.disturbed w e).Running i → ∀ d ∈ (m.disturbed w e).didsOf i, Knows (m.env e w.shared) d := by
  rintro i ⟨c,o,next,found⟩ d member
  simp only [disturbed] at found
  by_cases kills : m.kills e = true
  · rw [if_pos kills,List.getElem?_map,Option.map_eq_some_iff] at found
    obtain ⟨t,_,killed⟩ := found
    exact absurd killed killStops
  · rw [if_neg kills] at found
    exact kept.resolve_left kills d (known i ⟨c,o,next,found⟩ d member)

end Learning

/- Positions order the histories: of two parts of them with the same events, neither is the other's reordering. -/
theorem sameHistory {left right : List (Event Op Resp Call σ)} (first : left.Pairwise fun e e' => e.pos < e'.pos)
    (second : right.Pairwise fun e e' => e.pos < e'.pos) (same : ∀ e, e ∈ left ↔ e ∈ right) : left = right := by
  have irreflexive : Std.Irrefl fun (a b : Event Op Resp Call σ) => a.pos < b.pos := ⟨fun a => Nat.lt_irrefl _⟩
  have antisymmetric : Std.Antisymm fun (a b : Event Op Resp Call σ) => a.pos < b.pos :=
    ⟨fun a b less more => absurd less (Nat.lt_asymm more)⟩
  exact first.eq_of_mem_iff second same

theorem momentLog (reach : m.Reach ok s w) {v : Pool Op Resp Call σ α} (reached : m.Reach ok s v) {e}
    (history : ∀ d, d ∈ v.log ↔ d ∈ w.log ∧ d.pos < e.pos) : v.log = w.earlier e := by
  refine sameHistory (increasing reached) ((increasing reach).sublist List.filter_sublist) fun a => ?_
  simp only [Pool.earlier,List.mem_filter,decide_eq_true_eq,history]

/- The moment of an event again, with what was done before, by its task and by all. -/
theorem momentPast (reach : m.Reach ok s w) {e} (member : e ∈ w.log) :
    ∃ v, m.Reach ok s v ∧ v.shared = e.before ∧ v.didsOf e.task = (w.past e).map Event.did ∧
      v.log = w.earlier e ∧ ∃ next, v.tasks[e.task]? = some ⟨e.call,.op e.did.1 next,true⟩ := by
  obtain ⟨v,reached,_,shared,history,_,_,next,found⟩ := moment reach member
  have same : v.eventsOf e.task = w.past e := by
    refine sameHistory (eventsIncreasing reached e.task) ((increasing reach).sublist List.filter_sublist) fun a => ?_
    simp only [Pool.eventsOf,Pool.past,List.mem_filter,decide_eq_true_eq,history]
    tauto
  exact ⟨v,reached,shared,by rw [Pool.didsOf,same],momentLog reach reached history,next,found⟩

theorem earlierNew (reach : m.Reach ok s w) {i c o next} :
    (m.performed w i c o next).earlier (m.happening w i c o) = w.log := by
  have kept : w.log.filter (fun a => a.pos < (m.happening w i c o).pos) = w.log :=
    List.filter_eq_self.mpr fun a inside => decide_eq_true (olderPosition reach inside)
  rw [Pool.earlier,performed,List.filter_append,kept]
  simp

/- The operation right before an event in its task. -/
theorem lastDid {e : Event Op Resp Call σ} {d} (last : ((w.past e).map Event.did).getLast? = some d) :
    ∃ a ∈ w.log, a.task = e.task ∧ a.pos < e.pos ∧ a.did = d := by
  obtain ⟨a,there,rfl⟩ := List.mem_map.mp (List.mem_of_getLast? last)
  obtain ⟨inside,same⟩ := List.mem_filter.mp there
  obtain ⟨task,less⟩ := of_decide_eq_true same
  exact ⟨a,inside,task,less,rfl⟩

/- An event was due in its program: what its task had done before leads to its operation. -/
theorem eventPath (reach : m.Reach ok s w) {e} (member : e ∈ w.log) :
    ∃ next, Path (m.program e.task e.call) ((w.past e).map Event.did) (.op e.did.1 next) := by
  obtain ⟨v,reached,_,past,_,next,found⟩ := momentPast reach member
  have path := taskPath reached found
  rw [past] at path
  exact ⟨next,path⟩

/- What holds of every operation given its past in the program holds of every event. -/
theorem guarded {P : Nat → Call → List (Did Op Resp) → Op → Prop}
    (all : ∀ i c, (m.program i c).EveryAfter (P i c) []) (reach : m.Reach ok s w) {e} (member : e ∈ w.log) :
    ∃ done, P e.task e.call done e.did.1 ∧
      ∀ d ∈ done, ∃ a ∈ w.log, a.task = e.task ∧ a.pos < e.pos ∧ a.did = d := by
  obtain ⟨v,reached,_,_,history,_,_,_,found⟩ := moment reach member
  have later := everyAfterOnPath (taskPath reached found) (all e.task e.call)
  refine ⟨v.didsOf e.task,later.1,fun d done => ?_⟩
  obtain ⟨a,inside,task,did⟩ := didsOfMember.mp done
  obtain ⟨kept,less⟩ := (history a).mp inside
  exact ⟨a,kept,task,less,did⟩

/- A kind of operation that every program executes at most once is executed at most
once by each task: two such events of one task are the same event. -/
theorem performedOnce {P : Op → Prop} (once : ∀ i c, (m.program i c).AtMostOne P)
    (reach : m.Reach ok s w) :
    w.log.Pairwise fun e e' => e.task = e'.task → P e.did.1 → ¬ P e'.did.1 := by
  refine invariant (I := fun w => w.log.Pairwise fun e e' => e.task = e'.task → P e.did.1 → ¬ P e'.did.1)
    ?_ ?_ ?_ ?_ reach
  · exact .nil
  · intro w c _ _ ih; exact ih
  · intro w i c o next before _ found _ ih
    simp only [performed,List.pairwise_append,List.pairwise_singleton,List.mem_singleton,true_and]
    refine ⟨ih,?_⟩
    rintro e old _ rfl rfl hit
    have path := taskPath before found
    exact (atMostOneOnPath path (once _ _) (didsOfMember.mpr ⟨e,old,rfl,rfl⟩) hit).1
  · intro w e _ _ ih; exact ih

/- What holds at every end of a program holds of a task that has answered. -/
theorem answeredEnds {Q : Nat → Call → List (Did Op Resp) → α → Prop}
    (all : ∀ i c, (m.program i c).Ends (Q i c) []) (reach : m.Reach ok s w) {i c value}
    (done : w.Answered i c value) : Q i c (w.didsOf i) value := by
  obtain ⟨t,found,rfl,returned⟩ := done
  have path := taskPath reach found
  rw [returned] at path
  exact endsOnPath (all i t.call) path

/- Where the programs run in the order of a rank, two events of one task and one rank are
the same event. -/
theorem sameKind {rank : Op → Nat} (rising : ∀ i c, (m.program i c).Rising rank 0)
    (reach : m.Reach ok s w) {e e'} (left : e ∈ w.log) (right : e' ∈ w.log) (task : e.task = e'.task)
    (same : rank e.did.1 = rank e'.did.1) : e = e' := by
  have apart := performedOnce (P := fun o => rank o = rank e.did.1)
    (fun i c => risingAtMostOne (rising i c) _) reach
  by_contra different
  have symmetric : Std.Symm fun (d d' : Event Op Resp Call σ) => d.task = d'.task →
      rank d.did.1 = rank e.did.1 → ¬ rank d'.did.1 = rank e.did.1 :=
    ⟨fun d d' h same hit hit' => h same.symm hit' hit⟩
  exact apart.forall left right different task rfl same.symm

end Machine
end Pools
end OpenuuServer.AtomicProgram
