import OpenuuServer.RelayPairing

/-! What becomes of a parked stream. Looking a partner up and parking are two lock sections, and
the timer of a parked stream removes whatever is stored under the uuid. Two ends find each
other when neither looks while the other is in between, and a stream keeps its half minute
when no older timer for its uuid is still to come. -/
namespace OpenuuServer.RelayTimers
open AtomicProgram RelayPairing

section Runs
variable {key : String} {ok : World → Act Call Nat → Prop} {s : State} {w : World}

theorem clockForward (reach : (machine key).Reach ok s w) : ∀ e ∈ w.log, e.before.now ≤ w.shared.now := by
  refine Machine.invariant (I := fun w => ∀ e ∈ w.log, e.before.now ≤ w.shared.now) ?_ ?_ ?_ ?_ reach
  · intro e member; simp [Machine.initial] at member
  · intro w c _ _ ih; exact ih
  · intro w i c o next _ _ _ _ ih e member
    have still : (exec o w.shared).2.now = w.shared.now := by
      cases o <;> simp only [exec]
      split <;> rfl
    show e.before.now ≤ (exec o w.shared).2.now
    rw [still]
    rcases Machine.memPerformed.mp member with old | rfl
    · exact ih e old
    · exact Nat.le_refl _
  · intro w passed _ _ ih e member
    exact Nat.le_add_right_of_le (ih e member)

theorem clockOrder (reach : (machine key).Reach ok s w) {e e'} (left : e ∈ w.log) (right : e' ∈ w.log)
    (less : e.pos < e'.pos) : e.before.now ≤ e'.before.now := by
  obtain ⟨v,reached,_,shared,history,_⟩ := Machine.moment reach right
  rw [← shared]
  exact clockForward reached e ((history e).mpr ⟨left,less⟩)

/- The operations that touch the entry of a uuid. -/
def Touches (uuid : String) (o : Op) : Prop :=
  o = .take uuid ∨ o = .expire uuid ∨ ∃ stream, o = .park uuid stream

theorem touchedUuid (reach : (machine key).Reach ok s w) {e uuid} (inside : e ∈ w.log)
    (touches : Touches uuid e.did.1) : ∃ rf, e.call.received = .requestRelay rf ∧ rf.uuid = uuid := by
  obtain ⟨done,guard,_⟩ := behind reach inside
  rcases touches with o | o | ⟨stream,o⟩ <;> rw [o] at guard
  · obtain ⟨rf,⟨received,_⟩,same⟩ := guard
    exact ⟨rf,received,same⟩
  · obtain ⟨rf,received,same,_⟩ := guard
    exact ⟨rf,received,same⟩
  · obtain ⟨rf,⟨received,_⟩,same,_⟩ := guard
    exact ⟨rf,received,same⟩

theorem untouched {uuid : String} {o : Op} (apart : ¬ Touches uuid o) (s : State) :
    (exec o s).2.peers.lookup uuid = s.peers.lookup uuid := by
  unfold Touches at apart
  cases o with
  | take uuid' => exact AList.lookup_erase_ne (by rintro rfl; exact apart (.inl rfl))
  | expire uuid' => exact AList.lookup_erase_ne (by rintro rfl; exact apart (.inr (.inl rfl)))
  | park uuid' stream => exact AList.lookup_insert_ne (by rintro rfl; exact apart (.inr (.inr ⟨_,rfl⟩)))
  | redeem ticket relayId admitted => simp only [exec]; split <;> rfl
  | _ => rfl

/- A parked stream stays where it is until its entry is touched again. -/
theorem staysParked (reach : (machine key).Reach ok s w) : ∀ d ∈ w.log, ∀ uuid stream,
    d.did.1 = .park uuid stream →
      (∃ e ∈ w.log, d.pos < e.pos ∧ Touches uuid e.did.1) ∨ w.shared.peers.lookup uuid = some stream := by
  refine Machine.invariant (I := fun w => ∀ d ∈ w.log, ∀ uuid stream, d.did.1 = .park uuid stream →
    (∃ e ∈ w.log, d.pos < e.pos ∧ Touches uuid e.did.1) ∨ w.shared.peers.lookup uuid = some stream)
    ?_ ?_ ?_ ?_ reach
  · intro d member; simp [Machine.initial] at member
  · intro w c _ _ ih; exact ih
  · intro w i c o next before _ _ _ ih d member uuid stream park
    rcases Machine.memPerformed.mp member with old | rfl
    · by_cases touches : Touches uuid o
      · exact .inl ⟨_,Machine.happened,Machine.olderPosition before old,touches⟩
      · rcases ih d old uuid stream park with ⟨e,inside,less,hit⟩ | there
        · exact .inl ⟨e,Machine.stillThere inside,less,hit⟩
        · exact .inr ((untouched touches w.shared).trans there)
    · have same : o = .park uuid stream := park
      subst same
      exact .inr (AList.lookup_insert _)
  · intro w e _ _ ih; exact ih

end Runs
/- The request of the call asks for the uuid with the right key. -/
def Asks (key uuid : String) (c : Call) : Prop :=
  match c.received with
  | .requestRelay rf => rf.uuid = uuid ∧ (key ≠ "" → rf.licenceKey = key)
  | _ => False

def refused : Did Op Resp → Bool
  | ⟨.redeem _ _ _,redeemed⟩ => !redeemed
  | _ => false

/- Two authorised tasks ask for the uuid less than 30 s apart, and nobody else does. -/
structure Pair (key : String) (w : World) (i j : Nat) (uuid : String) : Prop where
  apart : i ≠ j
  left : ∃ c ∈ w.calls[i]?, Asks key uuid c
  right : ∃ c ∈ w.calls[j]?, Asks key uuid c
  alone : ∀ k c rf, w.calls[k]? = some c → c.received = .requestRelay rf → rf.uuid = uuid → k = i ∨ k = j
  redeemed : ∀ e ∈ w.log, e.task = i ∨ e.task = j → refused e.did = false
  close : ∀ a ∈ w.log, ∀ b ∈ w.log, a.task = i → b.task = j → a.did.1 = .recv → b.did.1 = .recv →
    a.before.now < b.before.now + 30000 ∧ b.before.now < a.before.now + 30000

def Looked (w : World) (i : Nat) (uuid : String) : Prop := ∃ e ∈ w.log, e.task = i ∧ e.did.1 = .take uuid

def Parked (w : World) (i : Nat) (uuid : String) : Prop :=
  ∃ d ∈ w.log, d.task = i ∧ d.did.1 = .park uuid (d.call.stream i)

def Expired (w : World) (i : Nat) (uuid : String) : Prop := ∃ e ∈ w.log, e.task = i ∧ e.did.1 = .expire uuid

/- Task i parked; task j took its stream out, did not park, and relays the two. -/
structure Joined (w : World) (uuid : String) (i j : Nat) : Prop where
  parked : Parked w i uuid
  other : ¬ Parked w j uuid
  taken : ∃ b ∈ w.log, b.task = j ∧ ∃ stream, stream.task = i ∧ b.did = ⟨.take uuid,some stream⟩
  relayed : ∀ c, w.Answered j c () → ∃ e ∈ w.log, relayed e.did.1 = [j,i]

def PairMeets (key : String) (w : World) : Prop :=
  ∀ i j uuid, Pair key w i j uuid → Looked w i uuid → Looked w j uuid → Joined w uuid i j ∨ Joined w uuid j i

/- A task looks the uuid up only before the other ones have, or while they are parked. -/
def InTurn (w : World) : Act Call Nat → Prop
  | .advance i => match w.next i with
    | some (.take uuid) => ∀ b ∈ w.log, b.did.1 = .take uuid →
      Parked w b.task uuid ∧ ¬ Expired w b.task uuid
    | _ => True
  | _ => True

instance (key uuid c) : Decidable (Asks key uuid c) := by unfold Asks; split <;> infer_instance
instance (w i uuid) : Decidable (Looked w i uuid) := by unfold Looked; infer_instance
instance (w i uuid) : Decidable (Parked w i uuid) := by unfold Parked; infer_instance
instance (w i uuid) : Decidable (Expired w i uuid) := by unfold Expired; infer_instance
instance (w a) : Decidable (InTurn w a) := by
  unfold InTurn
  split
  · split <;> infer_instance
  · infer_instance

/- A call that found a partner does not end before it relayed the two streams. -/
def RelaysFound (i : Nat) (done : List (Did Op Resp)) : Prop :=
  ∀ uuid found, ⟨.take uuid,some found⟩ ∈ done → ∃ d ∈ done, relayed d.1 = [i,found.task]

theorem makePairRelays (key : String) (i : Nat) (c : Call) :
    (makePair key i c).Ends (fun done _ => RelaysFound i done) [] := by
  unfold makePair act
  cases c.received with
  | requestRelay rf =>
    simp only [performIs,bindOp,bindRet,pureIsRet,endsOp,endsIte,endsRet,Option.forall]
    simp [RelaysFound,relayed,Call.stream]
  | _ => simp [RelaysFound]

section Pairs
variable {key : String} {ok : World → Act Call Nat → Prop} {s : State} {w : World}

/- A task touches an entry only after it has looked the uuid up. -/
theorem touchedAfterLook (reach : (machine key).Reach ok s w) {e uuid} (inside : e ∈ w.log)
    (touches : Touches uuid e.did.1) :
    ∃ g ∈ w.log, g.task = e.task ∧ g.did.1 = .take uuid ∧ g.pos ≤ e.pos := by
  have parks : ∀ d ∈ w.log, ∀ stream, d.did.1 = .park uuid stream →
      ∃ g ∈ w.log, g.task = d.task ∧ g.did.1 = .take uuid ∧ g.pos ≤ d.pos := by
    intro d member stream park
    obtain ⟨done,guard,past⟩ := behind reach member
    rw [park] at guard
    obtain ⟨rf,_,_,_,take⟩ := guard
    obtain ⟨g,kept,task,less,did⟩ := past _ take
    exact ⟨g,kept,task,by rw [did],Nat.le_of_lt less⟩
  rcases touches with take | expire | ⟨stream,park⟩
  · exact ⟨e,inside,rfl,take,Nat.le_refl _⟩
  · obtain ⟨done,guard,past⟩ := behind reach inside
    rw [expire] at guard
    obtain ⟨rf,_,_,park,_⟩ := guard
    obtain ⟨d,kept,task,less,did⟩ := past _ park
    obtain ⟨g,there,task',take,before⟩ := parks d kept _ (by rw [did])
    exact ⟨g,there,task'.trans task,take,by omega⟩
  · exact parks e inside stream park

theorem lookedBeforeParking (reach : (machine key).Reach ok s w) {a d uuid} (left : a ∈ w.log)
    (right : d ∈ w.log) (task : a.task = d.task) (take : a.did.1 = .take uuid)
    (park : d.did.1 = .park uuid (d.call.stream d.task)) : a.pos < d.pos := by
  obtain ⟨g,inside,same,looked,before⟩ := touchedAfterLook reach right (.inr (.inr ⟨_,park⟩))
  have one := kindOnceEach reach left inside (task.trans same.symm) (by rw [take,looked])
  have other : a ≠ d := by
    intro same
    rw [same,park] at take
    cases take
  have apart : a.pos ≠ d.pos := fun same => other (Machine.samePosition reach left right same)
  rw [← one] at before
  omega

/- The later of two lookups finds the stream of the earlier one. -/
theorem laterFinds (turn : ∀ w a, ok w a → InTurn w a) (reach : (machine key).Reach ok s w) {a b uuid}
    (alone : ∀ k c rf, w.calls[k]? = some c → c.received = .requestRelay rf → rf.uuid = uuid →
      k = a.task ∨ k = b.task)
    (left : a ∈ w.log) (right : b ∈ w.log) (first : a.did.1 = .take uuid) (second : b.did.1 = .take uuid)
    (less : a.pos < b.pos) : ∃ d ∈ w.log, d.task = a.task ∧ d.did.1 = .park uuid (d.call.stream a.task) ∧
      b.did = ⟨.take uuid,some (d.call.stream a.task)⟩ := by
  obtain ⟨v,reached,meets,shared,history,resp,_,next,found⟩ := Machine.moment reach right
  have waiting := nextIs found
  rw [second] at waiting
  have inTurn := turn _ _ meets
  simp only [InTurn,waiting] at inTurn
  have early := (history a).mpr ⟨left,less⟩
  obtain ⟨⟨d,parked,task,park⟩,running⟩ := inTurn a early first
  obtain ⟨kept,_⟩ := (history d).mp parked
  have own := park
  rw [← task] at own
  refine ⟨d,kept,task,park,?_⟩
  have there : v.shared.peers.lookup uuid = some (d.call.stream a.task) := by
    rcases staysParked reached d parked uuid _ park with ⟨e,inside,after,touches⟩ | there
    · -- nobody else asks for the uuid, and neither task can have touched the entry since
      exfalso
      obtain ⟨rf,received,same⟩ := touchedUuid reached inside touches
      obtain ⟨inLog,beforeB⟩ := (history e).mp inside
      obtain ⟨t,at',called⟩ := Machine.eventTask reach e inLog
      rcases alone e.task t.call rf (callAt at') (by rw [called,received]) same with mine | other
      · rcases touches with take | expire | ⟨stream,again⟩
        · have one := kindOnceEach reached early inside mine.symm (by rw [first,take])
          have order := lookedBeforeParking reached early parked task.symm first own
          rw [one] at order
          omega
        · exact running ⟨e,inside,mine,expire⟩
        · have one := kindOnceEach reached parked inside (task.trans mine.symm) (by rw [park,again]; rfl)
          rw [one] at after
          exact absurd after (Nat.lt_irrefl _)
      · obtain ⟨g,looked,task',take,order⟩ := touchedAfterLook reached inside touches
        obtain ⟨kept',beforeB'⟩ := (history g).mp looked
        have one := kindOnceEach reach kept' right (task'.trans other) (by rw [take,second])
        rw [one] at beforeB'
        exact absurd beforeB' (Nat.lt_irrefl _)
    · exact there
  rw [Machine.didIs second resp,← shared]
  exact congrArg _ there

theorem laterJoins (turn : ∀ w a, ok w a → InTurn w a) (reach : (machine key).Reach ok s w) {a b uuid}
    (alone : ∀ k c rf, w.calls[k]? = some c → c.received = .requestRelay rf → rf.uuid = uuid →
      k = a.task ∨ k = b.task)
    (left : a ∈ w.log) (right : b ∈ w.log) (first : a.did.1 = .take uuid) (second : b.did.1 = .take uuid)
    (less : a.pos < b.pos) : Joined w uuid a.task b.task := by
  obtain ⟨d,parked,task,park,taken⟩ := laterFinds turn reach alone left right first second less
  refine ⟨⟨d,parked,task,park⟩,?_,⟨b,right,rfl,_,rfl,taken⟩,fun c returned => ?_⟩
  · rintro ⟨d',parked',task',park'⟩
    exact takenNotParked reach right parked' taken park' task'.symm
  · have relays := Machine.answeredEnds (Q := fun i _ done _ => RelaysFound i done)
      (makePairRelays key) reach returned
    obtain ⟨did,member,joined⟩ := relays uuid _ (didsOfMember.mpr ⟨b,right,rfl,taken⟩)
    obtain ⟨e,inside,_,rfl⟩ := didsOfMember.mp member
    exact ⟨e,inside,joined⟩

end Pairs

/- Two ends that look in turn are relayed to each other. -/
theorem pairMeetsInTurn {key : String} {now : Nat} {w : World}
    (reach : (machine key).Reach InTurn (State.init now) w) : PairMeets key w := by
  intro i j uuid pair ⟨a,left,task,first⟩ ⟨b,right,task',second⟩
  subst task task'
  have turn : ∀ w a, InTurn w a → InTurn w a := fun _ _ meets => meets
  rcases Nat.lt_trichotomy a.pos b.pos with less | same | more
  · exact .inl (laterJoins turn reach pair.alone left right first second less)
  · exact absurd (congrArg Event.task (Machine.samePosition reach left right same)) pair.apart
  · have alone : ∀ k c rf, w.calls[k]? = some c → c.received = .requestRelay rf → rf.uuid = uuid →
        k = b.task ∨ k = a.task := fun k c rf found received same => (pair.alone k c rf found received same).symm
    exact .inr (laterJoins turn reach alone right left second first more)

def end₁ : Call := asking "ticket-a" 1000
def end₂ : Call := asking "ticket-b" 1001

theorem bothEnds {w : World} (calls : w.calls = [end₁,end₂])
    (redeemed : ∀ e ∈ w.log, e.task = 0 ∨ e.task = 1 → refused e.did = false)
    (close : ∀ a ∈ w.log, ∀ b ∈ w.log, a.task = 0 → b.task = 1 → a.did.1 = .recv → b.did.1 = .recv →
      a.before.now < b.before.now + 30000 ∧ b.before.now < a.before.now + 30000) :
    Pair "secret" w 0 1 "relay-1" := by
  refine ⟨by decide,⟨end₁,by rw [calls]; rfl,by decide⟩,⟨end₂,by rw [calls]; rfl,by decide⟩,?_,redeemed,close⟩
  intro k c rf found _ _
  have bound := (List.getElem?_eq_some_iff.mp found).1
  simp only [calls,List.length_cons,List.length_nil] at bound
  omega

/- Both look before either parks: the second park overwrites the first. -/
def bothLookActs : List (Act Call Nat) := [
  .start end₁,.start end₂,.advance 0,.advance 1,.advance 0,.advance 1,.advance 0,.advance 1,.advance 0,.advance 1]

theorem bothEndsParked : ∃ w, (machine "secret").Reach (fun _ _ => True) (State.init 0) w ∧
    Parked w 0 "relay-1" ∧ Parked w 1 "relay-1" ∧ ¬ PairMeets "secret" w := by
  obtain ⟨w,reach,shown⟩ := Machine.reachWith (fun _ _ => True) (fun _ _ => true)
    (fun _ _ _ => trivial) bothLookActs (m := machine "secret") (s := State.init 0)
    (P := fun w => w.calls = [end₁,end₂] &&
      (∀ e ∈ w.log, e.task = 0 ∨ e.task = 1 → refused e.did = false) &&
      (∀ a ∈ w.log, ∀ b ∈ w.log, a.task = 0 → b.task = 1 → a.did.1 = .recv → b.did.1 = .recv →
        a.before.now < b.before.now + 30000 ∧ b.before.now < a.before.now + 30000) &&
      decide (Looked w 0 "relay-1") && decide (Looked w 1 "relay-1") &&
      decide (Parked w 0 "relay-1") && decide (Parked w 1 "relay-1")) (by decide +kernel)
  simp only [Bool.and_eq_true,decide_eq_true_eq] at shown
  obtain ⟨⟨⟨⟨⟨⟨calls,redeemed⟩,close⟩,look⟩,look'⟩,parked⟩,parked'⟩ := shown
  refine ⟨w,reach,parked,parked',fun meets => ?_⟩
  rcases meets 0 1 "relay-1" (bothEnds calls redeemed close) look look' with joined | joined
  · exact joined.other parked'
  · exact joined.other parked

def inTurnActs : List (Act Call Nat) := [
  .start end₁,.start end₂,.advance 0,.advance 0,.advance 0,.advance 0,
  .env 29000,.advance 1,.advance 1,.advance 1,.advance 1,.advance 1,.advance 1]

theorem endsRelayed : ∃ w, (machine "secret").Reach InTurn (State.init 0) w ∧
    Pair "secret" w 0 1 "relay-1" ∧ w.Answered 1 end₂ () ∧
    (Joined w "relay-1" 0 1 ∨ Joined w "relay-1" 1 0) := by
  obtain ⟨w,reach,shown⟩ := Machine.reachWith InTurn (fun w a => decide (InTurn w a))
    (fun _ _ => of_decide_eq_true) inTurnActs (m := machine "secret") (s := State.init 0)
    (P := fun w => w.calls = [end₁,end₂] &&
      (∀ e ∈ w.log, e.task = 0 ∨ e.task = 1 → refused e.did = false) &&
      (∀ a ∈ w.log, ∀ b ∈ w.log, a.task = 0 → b.task = 1 → a.did.1 = .recv → b.did.1 = .recv →
        a.before.now < b.before.now + 30000 ∧ b.before.now < a.before.now + 30000) &&
      decide (Looked w 0 "relay-1") && decide (Looked w 1 "relay-1") &&
      w.answer 1 = some (end₂,some ())) (by decide +kernel)
  simp only [Bool.and_eq_true,decide_eq_true_eq] at shown
  obtain ⟨⟨⟨⟨⟨calls,redeemed⟩,close⟩,look⟩,look'⟩,returned⟩ := shown
  have pair := bothEnds calls redeemed close
  exact ⟨w,reach,pair,answered returned,pairMeetsInTurn reach 0 1 "relay-1" pair look look'⟩

/- Every parked stream is available for 30 s unless it was paired, and no timer removes the
stream of another call. -/
def KeepsItsTime (w : World) : Prop :=
  (∀ d ∈ w.log, ∀ uuid stream, d.did.1 = .park uuid stream → w.shared.now < d.before.now + 30000 →
    w.shared.peers.lookup uuid = some stream ∨ ∃ b ∈ w.log, b.did = ⟨.take uuid,some stream⟩) ∧
  ∀ e ∈ w.log, ∀ uuid stream, e.did = ⟨.expire uuid,some stream⟩ → stream.task = e.task

/- A lookup that found nobody is followed by its park at once. -/
def Atomic (w : World) (a : Act Call Nat) : Prop :=
  ∀ i < w.tasks.length, match w.next i with
    | some (.park _ _) => a = .advance i
    | _ => True

/- A stream is parked only when the timers of all earlier calls for its uuid have run. -/
def TimersOver (w : World) : Act Call Nat → Prop
  | .advance i => match w.next i with
    | some (.park uuid _) => ∀ d ∈ w.log, d.did.1 = .park uuid (d.call.stream d.task) → Expired w d.task uuid
    | _ => True
  | _ => True

section Times
variable {key : String} {ok : World → Act Call Nat → Prop} {s : State} {w : World}

theorem parkIs (reach : (machine key).Reach ok s w) {d uuid stream} (inside : d ∈ w.log)
    (park : d.did.1 = .park uuid stream) : stream = d.call.stream d.task := by
  obtain ⟨done,guard,_⟩ := behind reach inside
  rw [park] at guard
  obtain ⟨rf,_,_,same,_⟩ := guard
  exact same

theorem expiryParked (reach : (machine key).Reach ok s w) {e uuid} (inside : e ∈ w.log)
    (expire : e.did.1 = .expire uuid) :
    ∃ d ∈ w.log, d.task = e.task ∧ d.pos < e.pos ∧ d.did.1 = .park uuid (e.call.stream e.task) := by
  obtain ⟨done,guard,past⟩ := behind reach inside
  rw [expire] at guard
  obtain ⟨rf,_,_,park,_⟩ := guard
  obtain ⟨d,kept,task,less,did⟩ := past _ park
  exact ⟨d,kept,task,less,by rw [did]⟩

/- A timer runs no earlier than 30 s after the park of its task. -/
theorem expiryLate (reach : (machine key).Reach ok s w) {d e uuid stream} (left : d ∈ w.log) (right : e ∈ w.log)
    (task : d.task = e.task) (park : d.did.1 = .park uuid stream) (expire : e.did.1 = .expire uuid) :
    d.before.now + 30000 ≤ e.before.now := by
  obtain ⟨done,guard,past⟩ := behind reach right
  rw [expire] at guard
  obtain ⟨_,_,_,_,deadline,sleep⟩ := guard
  obtain ⟨g,slept,gTask,gLess,gDid⟩ := past _ sleep
  -- the sleep was over when the clock had reached its deadline
  obtain ⟨v,_,_,_,_,_,ready,_⟩ := Machine.moment reach slept
  have reached : deadline ≤ g.before.now := by
    rw [gDid] at ready
    exact of_decide_eq_true ready
  obtain ⟨done',guard',past'⟩ := behind reach slept
  rw [gDid] at guard'
  obtain ⟨started,clock,rfl⟩ := guard'
  obtain ⟨a,read,aTask,aLess,aDid⟩ := past' _ clock
  obtain ⟨_,_,_,_,_,resp,_⟩ := Machine.moment reach read
  have reading : started = a.before.now := by
    rw [aDid] at resp
    exact resp
  obtain ⟨done'',guard'',past''⟩ := behind reach read
  rw [aDid] at guard''
  obtain ⟨rf,_,parked⟩ := guard''
  obtain ⟨d',inside,dTask,dLess,dDid⟩ := past'' _ parked
  have one := kindOnceEach reach left inside (by omega) (by rw [park,dDid]; rfl)
  rw [← one] at dLess
  have first := clockOrder reach left read dLess
  have last := clockOrder reach slept right gLess
  omega

/- Once its own timer has run, a stream is not in PEERS any more. -/
theorem expiredGone (reach : (machine key).Reach ok s w) : ∀ f ∈ w.log, ∀ uuid stream,
    f.did.1 = .expire uuid → w.shared.peers.lookup uuid = some stream → stream.task ≠ f.task := by
  refine Machine.invariant (I := fun w => ∀ f ∈ w.log, ∀ uuid stream,
    f.did.1 = .expire uuid → w.shared.peers.lookup uuid = some stream → stream.task ≠ f.task) ?_ ?_ ?_ ?_ reach
  · intro f member; simp [Machine.initial] at member
  · intro w c _ _ ih; exact ih
  · intro w i c o next before meets found ready ih f member uuid stream expire there
    have after := Machine.reachPerformed before meets found ready
    rcases Machine.memPerformed.mp member with old | rfl
    · rcases peersAfter o w.shared there with kept | rfl
      · exact ih f old uuid stream expire kept
      · -- its task has parked before its timer ran, and parks only once
        intro same
        have own := parkTask after Machine.happened rfl
        obtain ⟨d,parked,task,_,park⟩ := expiryParked before old expire
        have one := kindOnceEach after (Machine.stillThere parked) Machine.happened
          (task.trans (same.symm.trans own)) (by rw [park]; rfl)
        have bound := Machine.olderPosition before parked
        rw [one] at bound
        exact absurd bound (Nat.lt_irrefl _)
    · have same : o = .expire uuid := expire
      subst same
      simp [Machine.performed,machine,exec] at there
  · intro w e _ _ ih; exact ih

variable (elapsed : ∀ w a, ok w a → TimersOver w a)
include elapsed

/- Of two calls that parked for a uuid, the earlier one's timer ran before the later parked. -/
theorem timerBetween (reach : (machine key).Reach ok s w) {d d' uuid stream stream'} (left : d ∈ w.log)
    (right : d' ∈ w.log) (park : d.did.1 = .park uuid stream) (park' : d'.did.1 = .park uuid stream')
    (less : d.pos < d'.pos) : ∃ f ∈ w.log, f.task = d.task ∧ f.did.1 = .expire uuid ∧ f.pos < d'.pos := by
  obtain ⟨v,reached,meets,_,history,_,_,next,found⟩ := Machine.moment reach right
  have waiting := nextIs found
  rw [park'] at waiting
  have timers := elapsed _ _ meets
  simp only [TimersOver,waiting] at timers
  have early := (history d).mpr ⟨left,less⟩
  obtain ⟨f,inside,task,expire⟩ := timers d early (by rw [park,parkIs reached early park])
  obtain ⟨kept,before⟩ := (history f).mp inside
  exact ⟨f,kept,task,expire,before⟩

/- A parked stream is there until it is taken or its own timer runs. -/
theorem parkedUntil (reach : (machine key).Reach ok s w) : ∀ d ∈ w.log, ∀ uuid stream,
    d.did.1 = .park uuid stream → w.shared.peers.lookup uuid = some stream ∨
      (∃ b ∈ w.log, b.did = ⟨.take uuid,some stream⟩) ∨ Expired w d.task uuid := by
  refine Machine.invariant (I := fun w => ∀ d ∈ w.log, ∀ uuid stream, d.did.1 = .park uuid stream →
    w.shared.peers.lookup uuid = some stream ∨
      (∃ b ∈ w.log, b.did = ⟨.take uuid,some stream⟩) ∨ Expired w d.task uuid) ?_ ?_ ?_ ?_ reach
  · intro d member; simp [Machine.initial] at member
  · intro w c _ _ ih; exact ih
  · intro w i c o next before meets found ready ih d member uuid stream park
    have after := Machine.reachPerformed before meets found ready
    rcases Machine.memPerformed.mp member with old | rfl
    · rcases ih d old uuid stream park with there | ⟨b,inside,taken⟩ | ⟨f,inside,task,expire⟩
      · have bound := Machine.olderPosition before old
        by_cases touches : Touches uuid o
        · rcases touches with rfl | rfl | ⟨stream',rfl⟩
          · refine .inr (.inl ⟨_,Machine.happened,?_⟩)
            exact congrArg _ there
          · -- the timer that runs belongs to this stream, or this stream's timer is over
            obtain ⟨d',parked,task,less,park'⟩ := expiryParked after Machine.happened rfl
            rcases Nat.lt_trichotomy d.pos d'.pos with first | same | last
            · obtain ⟨f,inside,task',expire,_⟩ := timerBetween elapsed after member parked park park' first
              exact .inr (.inr ⟨f,inside,task',expire⟩)
            · have one := Machine.samePosition after member parked same
              subst one
              exact .inr (.inr ⟨_,Machine.happened,task.symm,rfl⟩)
            · obtain ⟨f,inside,task',expire,before'⟩ := timerBetween elapsed after parked member park' park last
              have one := kindOnceEach after inside Machine.happened (task'.trans task) (by rw [expire]; rfl)
              rw [one] at before'
              exact absurd (Nat.lt_trans before' bound) (Nat.lt_irrefl _)
          · obtain ⟨f,inside,task,expire,_⟩ := timerBetween elapsed after member Machine.happened park rfl bound
            exact .inr (.inr ⟨f,inside,task,expire⟩)
        · exact .inl ((untouched touches w.shared).trans there)
      · exact .inr (.inl ⟨b,Machine.stillThere inside,taken⟩)
      · exact .inr (.inr ⟨f,Machine.stillThere inside,task,expire⟩)
    · have same : o = .park uuid stream := park
      subst same
      exact .inl (AList.lookup_insert _)
  · intro w e _ _ ih; exact ih

/- The timer of a call removes nothing but the stream of that call. -/
theorem timerOwn (empty : s.peers = ∅) (reach : (machine key).Reach ok s w) {e uuid stream} (inside : e ∈ w.log)
    (expire : e.did = ⟨.expire uuid,some stream⟩) : stream.task = e.task := by
  obtain ⟨v,reached,_,shared,history,resp,_⟩ := Machine.moment reach inside
  rw [expire] at resp
  have there : v.shared.peers.lookup uuid = some stream := by rw [shared]; exact resp.symm
  have op : e.did.1 = .expire uuid := by rw [expire]
  obtain ⟨d,early,park⟩ := parkedOrigin empty reached there
  obtain ⟨parked,less⟩ := (history d).mp early
  have owner := parkTask reach parked park
  obtain ⟨d',parked',task,less',park'⟩ := expiryParked reach inside op
  rcases Nat.lt_trichotomy d.pos d'.pos with first | same | last
  · obtain ⟨f,expired,fTask,fExpire,before⟩ := timerBetween elapsed reach parked parked' park park' first
    have gone := expiredGone reached f ((history f).mpr ⟨expired,by omega⟩) uuid stream fExpire there
    exact absurd (owner.trans fTask.symm) gone
  · rw [Machine.samePosition reach parked parked' same] at owner
    exact owner.trans task
  · -- the timer of this call would already have run before d parked
    obtain ⟨f,expired,fTask,fExpire,before⟩ := timerBetween elapsed reach parked' parked park' park last
    have one := kindOnceEach reach expired inside (fTask.trans task) (by rw [fExpire,op])
    rw [one] at before
    omega

end Times

instance (w a) : Decidable (TimersOver w a) := by
  unfold TimersOver
  split
  · split <;> infer_instance
  · infer_instance
instance (w a) : Decidable (Atomic w a) := by
  unfold Atomic
  refine @Nat.decidableBallLT _ _ fun i _ => ?_
  split <;> infer_instance

/- When no older timer for its uuid is still to come, a parked stream keeps its half minute. -/
theorem parkedKeepTheirTime {key : String} {now : Nat} {w : World}
    (reach : (machine key).Reach TimersOver (State.init now) w) : KeepsItsTime w := by
  have elapsed : ∀ w a, TimersOver w a → TimersOver w a := fun _ _ meets => meets
  have empty : (State.init now).peers = ∅ := rfl
  constructor
  · intro d inside uuid stream park early
    rcases parkedUntil elapsed reach d inside uuid stream park with there | taken | ⟨f,ran,task,expire⟩
    · exact .inl there
    · exact .inr taken
    · have late := expiryLate reach inside ran task.symm park expire
      have past := clockForward reach f ran
      omega
  · intro e inside uuid stream expire
    exact timerOwn elapsed empty reach inside expire

def end₃ : Call := asking "ticket-c" 1002

/- Parked at 0 s and taken at 1 s; the uuid is used again at 10 s; the first timer runs at 30 s. -/
def reusedActs : List (Act Call Nat) := [
  .start end₁,.advance 0,.advance 0,.advance 0,.advance 0,.advance 0,
  .env 1000,.start end₂,.advance 1,.advance 1,.advance 1,
  .env 9000,.start end₃,.advance 2,.advance 2,.advance 2,.advance 2,
  .env 20000,.advance 0,.advance 0]

theorem earlierTimerRemoves : ∃ w, (machine "secret").Reach Atomic (State.init 0) w ∧
    (∃ e ∈ w.log, e.task = 0 ∧ e.did = ⟨.expire "relay-1",some (end₃.stream 2)⟩) ∧ ¬ KeepsItsTime w := by
  obtain ⟨w,reach,shown⟩ := Machine.reachWith Atomic (fun w a => decide (Atomic w a))
    (fun _ _ => of_decide_eq_true) reusedActs (m := machine "secret") (s := State.init 0)
    (P := fun w => w.log.any fun e => e.task = 0 && match e.did with
      | ⟨.expire uuid,removed⟩ => uuid = "relay-1" && removed = some (end₃.stream 2)
      | _ => false) (by decide +kernel)
  obtain ⟨e,inside,removed⟩ := List.any_eq_true.mp shown
  obtain ⟨task,removed⟩ := Bool.and_eq_true_iff.mp removed
  have first := of_decide_eq_true task
  have expire : e.did = ⟨.expire "relay-1",some (end₃.stream 2)⟩ := by
    match did : e.did,removed with
    | ⟨.expire uuid,stream⟩,removed =>
      simp only [Bool.and_eq_true,decide_eq_true_eq] at removed
      rw [removed.1,removed.2]
  refine ⟨w,reach,⟨e,inside,first,expire⟩,fun keeps => ?_⟩
  have own := keeps.2 e inside _ _ expire
  rw [first] at own
  contradiction

/- The uuid is used again when the first timer is over. -/
def reusedLaterActs : List (Act Call Nat) := [
  .start end₁,.advance 0,.advance 0,.advance 0,.advance 0,.advance 0,
  .env 30000,.advance 0,.advance 0,
  .start end₂,.advance 1,.advance 1,.advance 1,.advance 1,.env 29999]

theorem laterStreamStays : ∃ w, (machine "secret").Reach TimersOver (State.init 0) w ∧
    KeepsItsTime w ∧ w.shared.peers.lookup "relay-1" = some (end₂.stream 1) := by
  obtain ⟨w,reach,there⟩ := Machine.reachWith TimersOver (fun w a => decide (TimersOver w a))
    (fun _ _ => of_decide_eq_true) reusedLaterActs (m := machine "secret") (s := State.init 0)
    (P := fun w => w.shared.peers.lookup "relay-1" = some (end₂.stream 1)) (by decide +kernel)
  exact ⟨w,reach,parkedKeepTheirTime reach,of_decide_eq_true there⟩

end OpenuuServer.RelayTimers
