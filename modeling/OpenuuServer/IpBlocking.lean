import OpenuuServer.RendezvousService

/-! The IP blocker of hbbs over sequences of registrations. Each address has one entry, with two
counters of different windows: the requests of the last minute and the ids of the last day. -/
namespace OpenuuServer.IpBlocking
open RendezvousServer
open RendezvousService (lookupInserted)
open PeerRegistry (IpBlocker blocked elapsedSecs)

abbrev Entry := (Nat × Nat) × (List String × Nat)

structure Check where
  now : Nat
  ip : String
  id : String
  deriving DecidableEq

inductive Event where
  | check (c : Check)
  | console (now : Nat) (forget : Option String)

def Event.now : Event → Nat
  | .check c => c.now
  | .console now _ => now

def Check.answer (b : IpBlocker) (c : Check) : Bool := (blocked c.now b c.ip c.id).1

def Check.after (b : IpBlocker) (c : Check) : IpBlocker := (blocked c.now b c.ip c.id).2

section Entries

def quiet (now : Nat) (e : Entry) : Bool := 60 < elapsedSecs now e.1.2

def outdated (now : Nat) (e : Entry) : Bool := 86400 < elapsedSecs now e.2.2

/- The check of the last minute lets the call through. -/
def passes (now : Nat) (e : Entry) : Bool := quiet now e || decide (e.1.1 ≤ 30)

def counted (now : Nat) (e : Entry) : Nat × Nat := ((if quiet now e then 0 else e.1.1) + 1,now)

def noted (now : Nat) (id : String) (e : Entry) : List String :=
  let kept := if outdated now e then [] else e.2.1
  if id ∉ e.2.1 then kept ++ [id] else kept

/- What becomes of the entry of an address: its check depends on no other entry. -/
inductive Judged (now : Nat) (id : String) : Option Entry → Bool → Entry → Prop where
  | first : Judged now id none true ((0,now),([],now))
  | minute {e : Entry} (held : passes now e = false) : Judged now id (some e) false e
  | full {e : Entry} (through : passes now e = true) (current : outdated now e = false) (many : 300 < e.2.1.length) :
      Judged now id (some e) (decide (id ∈ e.2.1)) (counted now e,e.2)
  | kept {e : Entry} (through : passes now e = true) (room : outdated now e = true ∨ e.2.1.length ≤ 300) :
      Judged now id (some e) true (counted now e,(noted now id e,now))

theorem checkJudged (b : IpBlocker) (c : Check) : ∃ e, Judged c.now c.id (b.lookup c.ip) (c.answer b) e ∧
    ∀ ip, (c.after b).lookup ip = if ip = c.ip then some e else b.lookup ip := by
  obtain ⟨now,ip,id⟩ := c
  unfold Check.answer Check.after blocked
  dsimp only
  cases here : b.lookup ip with
  | none => exact ⟨_,.first,fun other => lookupInserted other ip _ b⟩
  | some e =>
    have minute : (!decide (60 < elapsedSecs now e.1.2) && decide (30 < e.1.1)) = !passes now e := by
      simp only [passes,quiet,Bool.not_or,← decide_not,Nat.not_le]
    have day : (!decide (86400 < elapsedSecs now e.2.2) && decide (300 < e.2.1.length)) =
        decide (¬ (outdated now e = true ∨ e.2.1.length ≤ 300)) := by
      simp only [outdated,decide_eq_true_eq,not_or,Nat.not_le,Bool.decide_and,decide_not]
    obtain ⟨requests,ids⟩ := e
    dsimp only at minute day ⊢
    rw [minute,day]
    cases through : passes now (requests,ids) with
    | false =>
      refine ⟨_,.minute through,fun other => ?_⟩
      simp only [Bool.not_false,if_true]
      split
      · rename_i same
        rw [same,here]
      · rfl
    | true =>
      simp only [Bool.not_true,Bool.false_eq_true,if_false]
      by_cases room : outdated now (requests,ids) = true ∨ ids.1.length ≤ 300
      · simp only [room,not_true,decide_false,Bool.false_eq_true,if_false]
        refine ⟨_,.kept through room,fun other => ?_⟩
        rw [lookupInserted]
        simp [counted,noted,quiet,outdated]
      · obtain ⟨current,few⟩ := not_or.mp room
        simp only [room,not_false_eq_true,decide_true,if_true]
        have answer : (!decide (id ∉ ids.1)) = decide (id ∈ ids.1) := by simp
        rw [answer]
        exact ⟨_,.full through (Bool.eq_false_iff.mpr current) (Nat.not_le.mp few),fun other => lookupInserted other ip _ b⟩

theorem judgedOnce {now : Nat} {id : String} {o : Option Entry} {a a' : Bool} {e e' : Entry} (left : Judged now id o a e)
    (right : Judged now id o a' e') : a = a' ∧ e = e' := by
  cases left with
  | first =>
    cases right
    exact ⟨rfl,rfl⟩
  | minute held =>
    cases right with
    | minute => exact ⟨rfl,rfl⟩
    | full through | kept through => simp [held] at through
  | full through current many =>
    cases right with
    | minute held => simp [through] at held
    | full => exact ⟨rfl,rfl⟩
    | kept _ room =>
      simp only [current,Bool.false_eq_true,false_or] at room
      omega
  | kept through room =>
    cases right with
    | minute held => simp [through] at held
    | full _ current many =>
      simp only [current,Bool.false_eq_true,false_or] at room
      omega
    | kept => exact ⟨rfl,rfl⟩

theorem countedBound {now : Nat} {e : Entry} (through : passes now e = true) : (counted now e).1 ≤ 31 := by
  unfold counted
  unfold passes at through
  cases calm : quiet now e with
  | true => simp
  | false =>
    rw [calm,Bool.false_or,decide_eq_true_eq] at through
    exact Nat.succ_le_succ through

theorem notedLength {now : Nat} {id : String} {e : Entry} (room : outdated now e = true ∨ e.2.1.length ≤ 300) :
    (noted now id e).length ≤ 301 := by
  have grown : ∀ kept : List String, kept.length ≤ 300 → (if id ∉ e.2.1 then kept ++ [id] else kept).length ≤ 301 := by
    intro kept few
    split
    · rw [List.length_append,List.length_singleton]
      omega
    · omega
  unfold noted
  cases day : outdated now e with
  | true => exact grown [] (by decide)
  | false =>
    rw [day] at room
    exact grown e.2.1 (room.resolve_left Bool.false_ne_true)

end Entries

section Checks
variable {ip : String} {b b' : IpBlocker}

def checked (b : IpBlocker) (cs : List Check) : IpBlocker := cs.foldl Check.after b

/- What the calls of an address are told. -/
def answers (ip : String) (b : IpBlocker) : List Check → List Bool
  | [] => []
  | c :: cs => if c.ip = ip then c.answer b :: answers ip (c.after b) cs else answers ip (c.after b) cs

/- A new address has no requests yet. -/
def Check.passed (b : IpBlocker) (c : Check) : Bool := (b.lookup c.ip).all (passes c.now)

/- When the calls of an address were made that passed the check of the last minute. -/
def passTimes (ip : String) (b : IpBlocker) : List Check → List Nat
  | [] => []
  | c :: cs => if c.ip = ip ∧ c.passed b = true then c.now :: passTimes ip (c.after b) cs else passTimes ip (c.after b) cs

def Close (times : List Nat) : Prop := times.IsChain fun t t' => elapsedSecs t' t ≤ 60

instance (times : List Nat) : Decidable (Close times) := inferInstanceAs (Decidable (List.IsChain _ _))

structure Bounded (b : IpBlocker) : Prop where
  requests : ∀ ip e, b.lookup ip = some e → e.1.1 ≤ 31
  ids : ∀ ip e, b.lookup ip = some e → e.2.1.length ≤ 301

theorem boundedCheck (bounded : Bounded b) (c : Check) : Bounded (c.after b) := by
  obtain ⟨e,judged,after⟩ := checkJudged b c
  have mine : e.1.1 ≤ 31 ∧ e.2.1.length ≤ 301 := by
    generalize before : b.lookup c.ip = o at judged
    generalize c.answer b = answer at judged
    cases judged with
    | first => exact ⟨Nat.zero_le _,Nat.zero_le _⟩
    | minute => exact ⟨bounded.requests c.ip e before,bounded.ids c.ip e before⟩
    | @full e through => exact ⟨countedBound through,bounded.ids c.ip e before⟩
    | kept through room => exact ⟨countedBound through,notedLength room⟩
  constructor
  · intro other e' found
    rw [after] at found
    split at found
    · cases found
      exact mine.1
    · exact bounded.requests other e' found
  · intro other e' found
    rw [after] at found
    split at found
    · cases found
      exact mine.2
    · exact bounded.ids other e' found

theorem boundedChecks (bounded : Bounded b) (cs : List Check) : Bounded (checked b cs) := by
  induction cs generalizing b with
  | nil => exact bounded
  | cons c cs ih => exact ih (boundedCheck bounded c)

/- The calls of an address are answered as if there were no others. -/
theorem answersAlone (cs : List Check) (same : b.lookup ip = b'.lookup ip) :
    answers ip b cs = answers ip b' (cs.filter fun c => c.ip = ip) := by
  induction cs generalizing b b' with
  | nil => rfl
  | cons c cs ih =>
    obtain ⟨e,judged,after⟩ := checkJudged b c
    by_cases mine : c.ip = ip
    · subst mine
      obtain ⟨e',judged',after'⟩ := checkJudged b' c
      rw [← same] at judged'
      obtain ⟨answer,entry⟩ := judgedOnce judged judged'
      rw [List.filter_cons_of_pos (by simp)]
      simp only [answers,if_true]
      rw [answer,@ih _ (c.after b') (by rw [after,after',if_pos rfl,if_pos rfl,entry])]
    · rw [List.filter_cons_of_neg (by simpa using mine)]
      simp only [answers,if_neg mine]
      exact ih (by rw [after,if_neg (Ne.symm mine),same])

theorem turnedAway {c : Check} (held : c.passed b = false) :
    c.answer b = false ∧ ∀ ip, (c.after b).lookup ip = b.lookup ip := by
  obtain ⟨e,judged,after⟩ := checkJudged b c
  rw [Check.passed] at held
  generalize before : b.lookup c.ip = o at judged held
  generalize c.answer b = answer at judged
  cases judged with
  | first => cases held
  | minute =>
    refine ⟨rfl,fun ip => ?_⟩
    rw [after]
    split
    · rename_i same
      rw [same,before]
    · rfl
  | full through | kept through => simp [through] at held

/- A call that passes is counted; without a minute's pause it adds to those before it. -/
theorem passedOn {c : Check} (passed : c.passed b = true) : ∃ e, (c.after b).lookup c.ip = some e ∧ e.1.2 = c.now ∧ e.1.1 ≤ 31 ∧
    ∀ old, b.lookup c.ip = some old → elapsedSecs c.now old.1.2 ≤ 60 → e.1.1 = old.1.1 + 1 := by
  obtain ⟨e,judged,after⟩ := checkJudged b c
  rw [Check.passed] at passed
  refine ⟨e,by rw [after,if_pos rfl],?_⟩
  have next : ∀ old, elapsedSecs c.now old.1.2 ≤ 60 → (counted c.now old).1 = old.1.1 + 1 := by
    intro old near
    have restless : quiet c.now old = false := decide_eq_false (Nat.not_lt.mpr near)
    rw [counted,restless]
    rfl
  generalize b.lookup c.ip = o at judged passed
  generalize c.answer b = answer at judged
  cases judged with
  | first => exact ⟨rfl,Nat.zero_le _,fun old wrong => by cases wrong⟩
  | minute held => simp [held] at passed
  | full through | kept through =>
    refine ⟨rfl,countedBound through,?_⟩
    rintro old ⟨⟩ near
    exact next _ near

/- After a call that passed, the requests already counted are missing from the bound. -/
theorem stretchFrom {e : Entry} (cs : List Check) (here : b.lookup ip = some e) (few : e.1.1 ≤ 31)
    (close : Close (e.1.2 :: passTimes ip b cs)) : (answers ip b cs).count true + e.1.1 ≤ 31 := by
  induction cs generalizing b e with
  | nil => simpa [answers] using few
  | cons c cs ih =>
    by_cases mine : c.ip = ip
    · subst mine
      cases passed : c.passed b with
      | false =>
        obtain ⟨answer,same⟩ := turnedAway passed
        simp only [passTimes,passed,Bool.false_eq_true,and_false,if_false] at close
        simp only [answers,if_true,answer]
        rw [List.count_cons_of_ne (by decide)]
        exact ih ((same _).trans here) few close
      | true =>
        obtain ⟨e',there,time,bound,next⟩ := passedOn passed
        simp only [passTimes,passed,and_self,if_true] at close
        obtain ⟨near,later⟩ := List.isChain_cons_cons.mp close
        have more := next e here near
        rw [← time] at later
        have rest := ih there bound later
        simp only [answers,if_true]
        rw [List.count_cons]
        split <;> omega
    · obtain ⟨_,-,after⟩ := checkJudged b c
      simp only [passTimes,mine,false_and,if_false] at close
      simp only [answers,mine,if_false]
      exact ih (by rw [after,if_neg (Ne.symm mine),here]) few close

theorem stretchBound (cs : List Check) (close : Close (passTimes ip b cs)) : (answers ip b cs).count true ≤ 32 := by
  induction cs generalizing b with
  | nil => simp [answers]
  | cons c cs ih =>
    by_cases mine : c.ip = ip
    · subst mine
      cases passed : c.passed b with
      | false =>
        simp only [passTimes,passed,Bool.false_eq_true,and_false,if_false] at close
        simp only [answers,if_true,(turnedAway passed).1]
        rw [List.count_cons_of_ne (by decide)]
        exact ih close
      | true =>
        obtain ⟨e,there,time,bound,-⟩ := passedOn passed
        simp only [passTimes,passed,and_self,if_true] at close
        rw [← time] at close
        have rest := stretchFrom cs there bound close
        simp only [answers,if_true]
        rw [List.count_cons]
        split <;> omega
    · simp only [passTimes,mine,false_and,if_false] at close
      simp only [answers,mine,if_false]
      exact ih close

/- Without the console, no address has more than 31 requests or 301 ids to its name; of its calls at
most 32 are let through unless one of those that passed the check of the last minute comes more than
a minute after the one before; and the calls of other addresses are nothing to it. -/
theorem blockerBounds (ip : String) (cs : List Check) : Bounded (checked ∅ cs) ∧
    (∀ stretch, Close (passTimes ip (checked ∅ cs) stretch) → (answers ip (checked ∅ cs) stretch).count true ≤ 32) ∧
    answers ip ∅ cs = answers ip ∅ (cs.filter fun c => c.ip = ip) := by
  have empty : Bounded ∅ := ⟨fun _ _ wrong => (by cases wrong),fun _ _ wrong => (by cases wrong)⟩
  exact ⟨boundedChecks empty cs,stretchBound,answersAlone cs rfl⟩

/- A call a second: the 33rd is refused. -/
def burst : List Check := (List.range 40).map fun k => ⟨1000000000 * k,"203.0.113.5","100000001"⟩

theorem burstBounded : Close (passTimes "203.0.113.5" (checked ∅ []) burst) ∧
    (answers "203.0.113.5" (checked ∅ []) burst).count true ≤ 32 := by
  have close : Close (passTimes "203.0.113.5" (checked ∅ []) burst) := by decide +kernel
  exact ⟨close,(blockerBounds "203.0.113.5" []).2.1 burst close⟩

end Checks

section Memory
variable {b : IpBlocker} {ip id : String}

def Event.after (b : IpBlocker) : Event → IpBlocker
  | .check c => c.after b
  | .console now forget => trimBlocker now forget b

def passedBy (b : IpBlocker) (es : List Event) : IpBlocker := es.foldl Event.after b

/- The ids of the address are forgotten. -/
def Drops (ip : String) (b : IpBlocker) : Event → Prop
  | .check c => c.ip = ip ∧ ∃ e, b.lookup ip = some e ∧ passes c.now e = true ∧ outdated c.now e = true
  | .console now forget => (b.lookup ip).isSome ∧ (trimBlocker now forget b).lookup ip = none

def Undropped (ip : String) (b : IpBlocker) : List Event → Prop
  | [] => True
  | e :: es => ¬ Drops ip b e ∧ Undropped ip (e.after b) es

/- After the call, the same pair is refused for its requests only, until the ids are forgotten. -/
def Remembered (b : IpBlocker) (c : Check) : Prop :=
  ∀ es (c' : Check), c'.ip = c.ip → c'.id = c.id → (c.now :: (es.map Event.now ++ [c'.now])).Pairwise (· ≤ ·) →
    Undropped c.ip (c.after b) es →
    c'.answer (passedBy (c.after b) es) = true ∨ c'.passed (passedBy (c.after b) es) = false

/- The address had an entry, and the call did not clear the ids with its own among them. -/
def Keeps (b : IpBlocker) (c : Check) : Prop :=
  ∃ e, b.lookup c.ip = some e ∧ ¬ (outdated c.now e = true ∧ c.id ∈ e.2.1)

/- The address has an entry with the id. -/
def Holds (ip id : String) (b : IpBlocker) : Prop := ∃ e, b.lookup ip = some e ∧ id ∈ e.2.1

theorem notedOwn {now : Nat} {e : Entry} (apart : ¬ (outdated now e = true ∧ id ∈ e.2.1)) : id ∈ noted now id e := by
  unfold noted
  by_cases known : id ∈ e.2.1
  · have current : outdated now e = false := Bool.eq_false_iff.mpr fun day => apart ⟨day,known⟩
    simp [known,current]
  · simp [known]

theorem notedOld {now : Nat} {e : Entry} {other : String} (current : outdated now e = false) (known : id ∈ e.2.1) :
    id ∈ noted now other e := by
  simp only [noted,current,Bool.false_eq_true,if_false]
  split
  · exact List.mem_append_left _ known
  · exact known

theorem trimmedEntry {now : Nat} {forget : Option String} {e : Entry} (found : (trimBlocker now forget b).lookup ip = some e) :
    b.lookup ip = some e := by
  have spared : ∀ m : IpBlocker, (dropped forget m).lookup ip = some e → m.lookup ip = some e := by
    intro m inside
    cases forget with
    | none => exact inside
    | some name =>
      by_cases same : ip = name
      · subst same
        simp [dropped] at inside
      · simpa [dropped,AList.lookup_erase_ne same] using inside
  have kept := spared _ found
  rw [lookupRetain] at kept
  exact (Option.filter_eq_some_iff.mp kept).1

theorem admittedHolds {c : Check} (admitted : c.answer b = true) (keeps : Keeps b c) : Holds c.ip c.id (c.after b) := by
  obtain ⟨e,judged,after⟩ := checkJudged b c
  obtain ⟨old,before,apart⟩ := keeps
  refine ⟨e,by rw [after,if_pos rfl],?_⟩
  rw [before,admitted] at judged
  generalize yes : true = answer at judged
  cases judged with
  | minute => cases yes
  | full => exact of_decide_eq_true yes.symm
  | kept through room =>
    exact notedOwn apart

theorem heldOn (held : Holds ip id b) (e : Event) (spared : ¬ Drops ip b e) : Holds ip id (e.after b) := by
  obtain ⟨old,before,member⟩ := held
  cases e with
  | check c =>
    obtain ⟨e,judged,after⟩ := checkJudged b c
    by_cases mine : c.ip = ip
    · subst mine
      refine ⟨e,by rw [Event.after,after,if_pos rfl],?_⟩
      rw [before] at judged
      generalize c.answer b = answer at judged
      cases judged with
      | minute | full => exact member
      | kept through =>
        exact notedOld (Bool.eq_false_iff.mpr fun day => spared ⟨rfl,old,before,through,day⟩) member
    · exact ⟨old,by rw [Event.after,after,if_neg (Ne.symm mine),before],member⟩
  | console now forget =>
    cases found : (trimBlocker now forget b).lookup ip with
    | none => exact absurd ⟨by rw [before]; rfl,found⟩ spared
    | some e =>
      cases (trimmedEntry found).symm.trans before
      exact ⟨old,found,member⟩

theorem heldThrough (es : List Event) (held : Holds ip id b) (spared : Undropped ip b es) : Holds ip id (passedBy b es) := by
  induction es generalizing b with
  | nil => exact held
  | cons e es ih => exact ih (heldOn held e spared.1) spared.2

theorem heldAnswer {c : Check} (held : Holds c.ip c.id b) : c.answer b = true ∨ c.passed b = false := by
  obtain ⟨e,judged,-⟩ := checkJudged b c
  obtain ⟨old,before,member⟩ := held
  rw [Check.passed,before]
  rw [before] at judged
  generalize c.answer b = answer at judged ⊢
  cases judged with
  | minute held => exact .inr held
  | full => exact .inl (decide_eq_true member)
  | kept => exact .inl rfl

/- Ids that are new to a set without them. -/
def stranger (id : String) (k : Nat) : String := .ofList (id.toList ++ List.replicate (k + 1) 'x')

theorem strangerApart {j k : Nat} (same : stranger id j = stranger id k) : j = k := by
  have lists := congrArg (fun text => text.toList.length) same
  simpa [stranger] using lists

theorem strangerOther (id : String) (k : Nat) : stranger id k ≠ id := by
  intro same
  have lists := congrArg (fun text => text.toList.length) same
  simp [stranger] at lists

def flood (pause since : Nat) (ip id : String) (n : Nat) : List Event :=
  (List.range n).map fun k => .check ⟨since + pause * (k + 1),ip,stranger id k⟩

/- Just more than a minute. -/
def Spaced (pause : Nat) : Prop := ∀ since k, elapsedSecs (since + pause * (k + 1)) (since + pause * k) = 61

theorem minutesSpaced : Spaced 61000000000 := by
  intro since k
  unfold elapsedSecs
  omega

theorem passedByLast {es : List Event} {e : Event} : passedBy b (es ++ [e]) = e.after (passedBy b es) := by simp [passedBy]

theorem undroppedLast {es : List Event} {e : Event} :
    Undropped ip b (es ++ [e]) ↔ Undropped ip b es ∧ ¬ Drops ip (passedBy b es) e := by
  induction es generalizing b with
  | nil => exact and_comm
  | cons first es ih =>
    simp only [List.cons_append,Undropped,ih,and_assoc]
    rfl

/- Just more than a minute after both, the requests start again and the ids are still current. -/
theorem minuteLater {now : Nat} {e : Entry} (later : elapsedSecs now e.1.2 = 61) (same : e.1.2 = e.2.2) :
    quiet now e = true ∧ passes now e = true ∧ outdated now e = false := by
  have calm : quiet now e = true := by rw [quiet,later]; rfl
  refine ⟨calm,by rw [passes,calm]; rfl,?_⟩
  rw [outdated,← same,later]
  rfl

theorem strangerNoted {c : Check} {e : Entry} (here : b.lookup c.ip = some e) (later : elapsedSecs c.now e.1.2 = 61)
    (same : e.1.2 = e.2.2) (few : e.2.1.length ≤ 300) (new : c.id ∉ e.2.1) :
    ¬ Drops c.ip b (.check c) ∧ (c.after b).lookup c.ip = some ((1,c.now),(e.2.1 ++ [c.id],c.now)) := by
  obtain ⟨calm,through,current⟩ := minuteLater later same
  constructor
  · rintro ⟨-,old,there,-,day⟩
    cases here.symm.trans there
    simp [current] at day
  · obtain ⟨e',judged,after⟩ := checkJudged b c
    rw [here] at judged
    rw [after,if_pos rfl,← (judgedOnce (.kept through (.inr few)) judged).2]
    simp [counted,noted,calm,current,new]

theorem strangerRefused {c : Check} {e : Entry} (here : b.lookup c.ip = some e) (later : elapsedSecs c.now e.1.2 = 61)
    (same : e.1.2 = e.2.2) (many : 300 < e.2.1.length) (new : c.id ∉ e.2.1) : c.answer b = false ∧ c.passed b = true := by
  obtain ⟨_,through,current⟩ := minuteLater later same
  obtain ⟨e',judged,-⟩ := checkJudged b c
  rw [here] at judged
  constructor
  · rw [(judgedOnce judged (.full through current many)).1]
    exact decide_eq_false new
  · rw [Check.passed,here]
    exact through

/- With nothing noted, a call a minute fills the set with other ids. -/
theorem flooded {n now pause : Nat} (spaced : Spaced pause) (blank : b.lookup ip = some ((n,now),([],now))) (k : Nat)
    (few : k ≤ 301) :
    Undropped ip b (flood pause now ip id k) ∧ ∃ m, (passedBy b (flood pause now ip id k)).lookup ip =
      some ((m,now + pause * k),((List.range k).map (stranger id),now + pause * k)) := by
  induction k with
  | zero => exact ⟨trivial,n,blank⟩
  | succ k ih =>
    obtain ⟨kept,m,here⟩ := ih (Nat.le_of_succ_le few)
    have last : flood pause now ip id (k + 1) = flood pause now ip id k ++ [.check ⟨now + pause * (k + 1),ip,stranger id k⟩] := by
      simp [flood,List.range_succ]
    have new : stranger id k ∉ (List.range k).map (stranger id) := by
      intro member
      obtain ⟨j,low,same⟩ := List.mem_map.mp member
      exact absurd (List.mem_range.mp low) (Nat.not_lt.mpr (strangerApart same).ge)
    have noted := strangerNoted (c := ⟨now + pause * (k + 1),ip,stranger id k⟩) here (spaced now k) rfl
      (by simpa using Nat.le_of_succ_le_succ few) new
    rw [last,undroppedLast,passedByLast]
    refine ⟨⟨kept,noted.1⟩,1,noted.2.trans ?_⟩
    simp [List.range_succ]

/- An admitted call that is not kept leaves an entry without ids. -/
theorem admittedBlank {c : Check} (admitted : c.answer b = true) (lost : ¬ Keeps b c) :
    ∃ n, (c.after b).lookup c.ip = some ((n,c.now),([],c.now)) := by
  obtain ⟨e,judged,after⟩ := checkJudged b c
  rw [admitted] at judged
  rw [after,if_pos rfl]
  cases before : b.lookup c.ip with
  | none =>
    rw [before] at judged
    cases judged
    exact ⟨0,rfl⟩
  | some old =>
    obtain ⟨day,known⟩ : outdated c.now old = true ∧ c.id ∈ old.2.1 := by
      by_contra apart
      exact lost ⟨old,before,apart⟩
    rw [before] at judged
    generalize yes : true = answer at judged
    cases judged with
    | minute => cases yes
    | full _ current => simp [day] at current
    | kept => exact ⟨(counted c.now old).1,by simp [noted,known,day,counted]⟩

/- An id that was admitted without being noted is refused once the set is full of others. -/
theorem lostRefused {c : Check} {n k pause : Nat} (spaced : Spaced pause)
    (blank : (c.after b).lookup c.ip = some ((n,c.now),([],c.now))) (full : k = 301) :
    Undropped c.ip (c.after b) (flood pause c.now c.ip c.id k) ∧
    (⟨c.now + pause * (k + 1),c.ip,c.id⟩ : Check).answer (passedBy (c.after b) (flood pause c.now c.ip c.id k)) = false ∧
    (⟨c.now + pause * (k + 1),c.ip,c.id⟩ : Check).passed (passedBy (c.after b) (flood pause c.now c.ip c.id k)) = true := by
  obtain ⟨kept,m,here⟩ := @flooded _ c.ip c.id _ _ _ spaced blank k full.le
  have new : c.id ∉ (List.range k).map (stranger c.id) := by
    intro member
    obtain ⟨j,_,same⟩ := List.mem_map.mp member
    exact strangerOther c.id j same
  have many : 300 < ((List.range k).map (stranger c.id)).length := by
    rw [List.length_map,List.length_range]
    omega
  exact ⟨kept,strangerRefused (c := ⟨c.now + pause * (k + 1),c.ip,c.id⟩) here (spaced c.now k) rfl many new⟩

theorem floodOrdered (pause now : Nat) (ip id : String) (n : Nat) :
    (now :: ((flood pause now ip id n).map Event.now ++ [now + pause * (n + 1)])).Pairwise (· ≤ ·) := by
  have times : now :: ((flood pause now ip id n).map Event.now ++ [now + pause * (n + 1)]) =
      (List.range (n + 2)).map fun k => now + pause * k := by
    rw [List.range_succ_eq_map,List.map_cons,List.range_succ]
    simp [flood,Event.now,Function.comp_def]
  rw [times,List.pairwise_map]
  exact List.pairwise_lt_range.imp fun less => Nat.add_le_add_left (Nat.mul_le_mul_left pause (Nat.le_of_lt less)) now

/- An admitted pair can count on its id exactly when the call that admitted it is one that notes it. -/
theorem rememberedIfKept {c : Check} (admitted : c.answer b = true) : Remembered b c ↔ Keeps b c := by
  constructor
  · intro remembered
    by_contra lost
    obtain ⟨n,blank⟩ := admittedBlank admitted lost
    obtain ⟨k,full⟩ : ∃ k, k = 301 := ⟨_,rfl⟩
    obtain ⟨pause,spaced⟩ : ∃ pause, Spaced pause := ⟨_,minutesSpaced⟩
    obtain ⟨kept,refused,passed⟩ := lostRefused spaced blank full
    rcases remembered _ ⟨c.now + pause * (k + 1),c.ip,c.id⟩ rfl rfl (floodOrdered pause c.now c.ip c.id k) kept with yes | held
    · cases yes.symm.trans refused
    · cases held.symm.trans passed
  · intro keeps es c' ip id _ kept
    have held := heldThrough es (admittedHolds admitted keeps) kept
    rw [← ip,← id] at held
    exact heldAnswer held

def firstCall : Check := ⟨0,"203.0.113.5","100000001"⟩

def secondCall : Check := ⟨1000000000,"203.0.113.5","100000002"⟩

/- The first call of an address is not noted. -/
theorem firstForgotten : firstCall.answer ∅ = true ∧
    Undropped firstCall.ip (firstCall.after ∅) (flood 61000000000 firstCall.now firstCall.ip firstCall.id 301) ∧
    (⟨firstCall.now + 61000000000 * (301 + 1),firstCall.ip,firstCall.id⟩ : Check).answer
      (passedBy (firstCall.after ∅) (flood 61000000000 firstCall.now firstCall.ip firstCall.id 301)) = false ∧
    (⟨firstCall.now + 61000000000 * (301 + 1),firstCall.ip,firstCall.id⟩ : Check).passed
      (passedBy (firstCall.after ∅) (flood 61000000000 firstCall.now firstCall.ip firstCall.id 301)) = true := by
  have blank : (firstCall.after ∅).lookup firstCall.ip = some ((0,firstCall.now),([],firstCall.now)) := by decide
  exact ⟨by decide,lostRefused minutesSpaced blank rfl⟩

theorem secondRemembered : Remembered (firstCall.after ∅) secondCall := by
  have keeps : Keeps (firstCall.after ∅) secondCall := ⟨((0,0),([],0)),by decide,by decide⟩
  exact (rememberedIfKept (by decide)).mpr keeps

end Memory
end OpenuuServer.IpBlocking
