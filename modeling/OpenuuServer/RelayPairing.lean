import OpenuuServer.AtomicProgram
import Mathlib.Data.List.AList

/-! The pairing of relay streams in hbbr. Every connection runs `make_pair_` as a task of its
own; what they share is PEERS and USAGE, locked for one access at a time, and the tickets the
account store has redeemed. A stream is known by the number of the task that accepted it. -/
namespace OpenuuServer.RelayPairing
open AtomicProgram

structure RequestRelay where
  token : String
  uuid : String
  licenceKey : String
  deriving DecidableEq

inductive Received where
  | nothing
  | unparsable
  | other
  | requestRelay (rf : RequestRelay)
  deriving DecidableEq

/- What one attempt to reach the account service came to. A body without a boolean `ok`
reads as `none`. -/
inductive Sent where
  | connectError
  | error
  | response (success : Bool) (ok : Option Bool)
  deriving DecidableEq

def accept (success : Bool) (ok : Option Bool) : Bool := success && ok = some true

inductive Redeemer where
  | inProcess (redeemed : Bool)
  | http (first second : Sent)
  deriving DecidableEq

/- Retried once, and only when the first attempt never reached the server. -/
def Redeemer.redeem : Redeemer → Bool
  | .inProcess redeemed => redeemed
  | .http (.response success ok) _ => accept success ok
  | .http .connectError (.response success ok) => accept success ok
  | .http _ _ => false

structure Stream where
  task : Nat
  ws : Bool
  raw : Bool
  deriving DecidableEq

def Stream.setRaw (s : Stream) : Stream := if s.ws then s else { s with raw := true }

@[simp] theorem setRawTask (s : Stream) : s.setRaw.task = s.task := by
  unfold Stream.setRaw; split <;> rfl

structure Addr where
  ip : String
  port : Nat
  deriving DecidableEq

structure Call where
  addr : Addr
  ws : Bool
  received : Received
  redeemer : Redeemer
  deriving DecidableEq

def Call.stream (c : Call) (i : Nat) : Stream := ⟨i,c.ws,false⟩

/- `take` and `expire` are both a removal from PEERS: on arrival, and when the timer fired. -/
inductive Op where
  | recv
  | redeem (ticket relayId : String) (admitted : Bool)
  | take (uuid : String)
  | usageInsert (id : String)
  | relay (addr : Addr) (stream peer : Stream) (id : String)
  | usageRemove (id : String)
  | park (uuid : String) (stream : Stream)
  | clock
  | sleepUntil (deadline : Nat)
  | expire (uuid : String)
  deriving DecidableEq

@[reducible] def Resp : Op → Type
  | .redeem _ _ _ => Bool
  | .take _ | .expire _ => Option Stream
  | .clock => Nat
  | _ => Unit

abbrev Usage := Nat × Nat × Nat × Nat

/- `now` is the monotonic clock in milliseconds. -/
structure State where
  now : Nat
  spent : List String
  peers : AList fun _ : String => Stream
  usage : AList fun _ : String => Usage

def State.init (now : Nat) : State := ⟨now,[],∅,∅⟩

def exec : (o : Op) → State → Resp o × State
  | .recv,s | .relay _ _ _ _,s | .sleepUntil _,s => ((),s)
  | .redeem ticket _ admitted,s =>
    if admitted = true ∧ ticket ∉ s.spent then (true,{ s with spent := ticket :: s.spent }) else (false,s)
  | .take uuid,s | .expire uuid,s => (s.peers.lookup uuid,{ s with peers := s.peers.erase uuid })
  | .usageInsert id,s => ((),{ s with usage := s.usage.insert id (0,0,0,0) })
  | .usageRemove id,s => ((),{ s with usage := s.usage.erase id })
  | .park uuid stream,s => ((),{ s with peers := s.peers.insert uuid stream })
  | .clock,s => (s.now,s)

def Addr.text (a : Addr) : String := a.ip ++ ":" ++ toString a.port

def act (o : Op) : Prog Op Resp (Resp o) := perform o

def makePair (key : String) (i : Nat) (c : Call) : Prog Op Resp Unit := do
  act .recv
  let .requestRelay rf := c.received | return
  let redeemed : Bool ← act (.redeem rf.token rf.uuid c.redeemer.redeem)
  if !redeemed then return
  if !key.isEmpty && rf.licenceKey ≠ key then return
  if rf.uuid.isEmpty then return
  let stream := c.stream i
  let peer : Option Stream ← act (.take rf.uuid)
  match peer with
  | some peer =>
    let id := c.addr.text
    act (.usageInsert id)
    if !stream.ws && !peer.ws then
      act (.relay c.addr stream.setRaw peer.setRaw id)
    else
      act (.relay c.addr stream peer id)
    act (.usageRemove id)
  | none =>
    act (.park rf.uuid stream)
    let started : Nat ← act .clock
    act (.sleepUntil (started + 30000))
    let _ ← act (.expire rf.uuid)

abbrev World := Pool Op Resp Call State Unit

def machine (key : String) : Machine Op Resp Call Nat State Unit where
  program := makePair key
  exec := exec
  ready := fun o s => match o with
    | .sleepUntil deadline => deadline ≤ s.now
    | _ => true
  env := fun passed s => { s with now := s.now + passed }
  kills := fun _ => false

/- What lies behind an operation of `make_pair_`: a stream is looked up, parked or relayed only
after its own ticket was redeemed for the uuid and the key was checked. -/
def Admitted (key : String) (c : Call) (done : List (Did Op Resp)) (rf : RequestRelay) : Prop :=
  c.received = .requestRelay rf ∧ rf.uuid ≠ "" ∧ (key ≠ "" → rf.licenceKey = key) ∧
    ⟨.redeem rf.token rf.uuid c.redeemer.redeem,true⟩ ∈ done

def Guard (key : String) (i : Nat) (c : Call) (done : List (Did Op Resp)) : Op → Prop
  | .take uuid => ∃ rf, Admitted key c done rf ∧ rf.uuid = uuid
  | .relay _ stream peer _ => ∃ rf, Admitted key c done rf ∧ stream.task = i ∧
    ∃ found, ⟨.take rf.uuid,some found⟩ ∈ done ∧ peer.task = found.task
  | .park uuid stream => ∃ rf, Admitted key c done rf ∧ rf.uuid = uuid ∧ stream = c.stream i ∧
    ⟨.take uuid,none⟩ ∈ done
  | .sleepUntil deadline => ∃ started, ⟨.clock,started⟩ ∈ done ∧ deadline = started + 30000
  | .clock => ∃ rf, c.received = .requestRelay rf ∧ ⟨.park rf.uuid (c.stream i),()⟩ ∈ done
  | .expire uuid => ∃ rf, c.received = .requestRelay rf ∧ rf.uuid = uuid ∧
    ⟨.park uuid (c.stream i),()⟩ ∈ done ∧ ∃ deadline, ⟨.sleepUntil deadline,()⟩ ∈ done
  | _ => True

theorem emptyText {text : String} : text.isEmpty = false ↔ text ≠ "" := by
  rw [← Bool.not_eq_true,String.isEmpty_iff]

theorem makePairGuarded (key : String) (i : Nat) (c : Call) :
    (makePair key i c).EveryAfter (Guard key i c) [] := by
  unfold makePair act
  cases received : c.received with
  | requestRelay rf =>
    simp only [performIs,bindOp,bindRet]
    refine ⟨trivial,fun _ => ⟨trivial,fun redeemed => ?_⟩⟩
    cases redeemed with
    | false => trivial
    | true =>
      simp only [Bool.not_true,Bool.false_eq_true,if_false]
      split
      · trivial
      rename_i keyed
      split
      · trivial
      rename_i named
      have admitted : ∀ done, ⟨.redeem rf.token rf.uuid c.redeemer.redeem,true⟩ ∈ done →
          Admitted key c done rf := by
        intro done redeemed
        refine ⟨received,fun empty => named (by rw [empty]; rfl),fun given => ?_,redeemed⟩
        have nonempty := emptyText.mpr given
        simpa [nonempty] using keyed
      refine ⟨⟨rf,admitted _ (by simp),rfl⟩,fun found => ?_⟩
      cases found with
      | none =>
        refine ⟨⟨rf,admitted _ (by simp),rfl,rfl,by simp⟩,fun _ => ⟨⟨rf,received,by simp⟩,fun started => ?_⟩⟩
        refine ⟨⟨started,by simp,rfl⟩,fun _ => ⟨⟨rf,received,rfl,by simp,started + 30000,by simp⟩,fun _ => trivial⟩⟩
      | some peer =>
        refine ⟨trivial,fun _ => ?_⟩
        split
        · exact ⟨⟨rf,admitted _ (by simp),setRawTask _,peer,by simp,setRawTask _⟩,fun _ => ⟨trivial,fun _ => trivial⟩⟩
        · exact ⟨⟨rf,admitted _ (by simp),rfl,peer,by simp,rfl⟩,fun _ => ⟨trivial,fun _ => trivial⟩⟩
  | _ => exact ⟨trivial,fun _ => trivial⟩

theorem operationsRise (key : String) (i : Nat) (c : Call) : (makePair key i c).Rising Op.ctorIdx 0 := by
  unfold makePair act
  cases c.received with
  | requestRelay rf =>
    simp only [performIs,bindOp,bindRet,pureIsRet,risingOp,risingIte,risingRet,Option.forall,Op.ctorIdx]
    simp
  | _ => simp

/- What the operations do to PEERS. -/
theorem peersAfter (o : Op) (s : State) {uuid stream} (found : (exec o s).2.peers.lookup uuid = some stream) :
    s.peers.lookup uuid = some stream ∨ o = .park uuid stream := by
  cases o with
  | park uuid' stream' =>
    by_cases same : uuid = uuid'
    · subst same
      simp only [exec,AList.lookup_insert,Option.some.injEq] at found
      exact .inr (by rw [found])
    · simp only [exec,AList.lookup_insert_ne same] at found
      exact .inl found
  | take uuid' =>
    by_cases same : uuid = uuid'
    · subst same
      simp [exec] at found
    · simp only [exec,AList.lookup_erase_ne same] at found
      exact .inl found
  | expire uuid' =>
    by_cases same : uuid = uuid'
    · subst same
      simp [exec] at found
    · simp only [exec,AList.lookup_erase_ne same] at found
      exact .inl found
  | redeem ticket relayId admitted =>
    simp only [exec] at found
    split at found <;> exact .inl found
  | _ => exact .inl found

theorem spentGrows (o : Op) (s : State) {ticket} (member : ticket ∈ s.spent) : ticket ∈ (exec o s).2.spent := by
  cases o with
  | redeem ticket' relayId admitted =>
    simp only [exec]
    split
    · exact List.mem_cons_of_mem _ member
    · exact member
  | _ => exact member

section Runs
variable {key : String} {ok : World → Act Call Nat → Prop} {s : State} {w : World}

theorem behind (reach : (machine key).Reach ok s w) {e} (member : e ∈ w.log) :
    ∃ done, Guard key e.task e.call done e.did.1 ∧
      ∀ d ∈ done, ∃ a ∈ w.log, a.task = e.task ∧ a.pos < e.pos ∧ a.did = d :=
  Machine.guarded (makePairGuarded key) reach member

theorem kindOnceEach (reach : (machine key).Reach ok s w) {e e'} (left : e ∈ w.log) (right : e' ∈ w.log)
    (task : e.task = e'.task) (kind : e.did.1.ctorIdx = e'.did.1.ctorIdx) : e = e' :=
  Machine.sameKind (operationsRise key) reach left right task kind

/- A stream in PEERS was put there by its own task. -/
theorem parkedOrigin (empty : s.peers = ∅) (reach : (machine key).Reach ok s w) {uuid stream} :
    w.shared.peers.lookup uuid = some stream → ∃ d ∈ w.log, d.did.1 = .park uuid stream := by
  revert uuid stream
  refine Machine.invariant (I := fun w => ∀ {uuid stream}, w.shared.peers.lookup uuid = some stream →
    ∃ d ∈ w.log, d.did.1 = .park uuid stream) ?_ ?_ ?_ ?_ reach
  · intro uuid stream found
    have none : s.peers.lookup uuid = some stream := found
    rw [empty] at none
    cases none
  · intro w c _ _ ih; exact ih
  · intro w i c o next _ _ _ _ ih uuid stream found
    rcases peersAfter o w.shared found with old | rfl
    · obtain ⟨d,inside,park⟩ := ih old
      exact ⟨d,Machine.stillThere inside,park⟩
    · exact ⟨_,Machine.happened,rfl⟩
  · intro w e _ _ ih; exact ih

theorem parkTask (reach : (machine key).Reach ok s w) {d uuid stream} (inside : d ∈ w.log)
    (park : d.did.1 = .park uuid stream) : stream.task = d.task := by
  obtain ⟨done,guard,_⟩ := behind reach inside
  rw [park] at guard
  obtain ⟨rf,_,_,rfl,_⟩ := guard
  rfl

theorem takenParked (empty : s.peers = ∅) (reach : (machine key).Reach ok s w) {b uuid stream}
    (inside : b ∈ w.log) (taken : b.did = ⟨.take uuid,some stream⟩) :
    ∃ d ∈ w.log, d.did.1 = .park uuid stream ∧ d.pos < b.pos := by
  obtain ⟨v,reached,_,shared,history,resp,_⟩ := Machine.moment reach inside
  rw [taken] at resp
  have found : v.shared.peers.lookup uuid = some stream := by rw [shared]; exact resp.symm
  obtain ⟨d,there,park⟩ := parkedOrigin empty reached found
  obtain ⟨kept,less⟩ := (history d).mp there
  exact ⟨d,kept,park,less⟩

/- What is in PEERS has not been handed out to anybody. -/
theorem parkedUntaken (empty : s.peers = ∅) (reach : (machine key).Reach ok s w) {uuid stream} :
    w.shared.peers.lookup uuid = some stream →
      ∀ b ∈ w.log, ∀ uuid' stream', b.did = ⟨.take uuid',some stream'⟩ → stream'.task ≠ stream.task := by
  revert uuid stream
  refine Machine.invariant (I := fun w => ∀ {uuid stream}, w.shared.peers.lookup uuid = some stream →
    ∀ b ∈ w.log, ∀ uuid' stream', b.did = ⟨.take uuid',some stream'⟩ → stream'.task ≠ stream.task)
    ?_ ?_ ?_ ?_ reach
  · intro uuid stream _ b member; simp [Machine.initial] at member
  · intro w c _ _ ih; exact ih
  · intro w i c o next before meets found ready ih uuid stream there b member uuid' stream' taken same
    have after := Machine.reachPerformed before meets found ready
    obtain ⟨d,inside,park⟩ := parkedOrigin empty after there
    have mine := parkTask after inside park
    obtain ⟨d',inside',park',earlier⟩ := takenParked empty after member taken
    have mine' := parkTask after inside' park'
    -- both parks are the one park of the task
    have one := kindOnceEach after inside inside' (by omega) (by rw [park,park']; rfl)
    subst one
    obtain ⟨rfl,rfl⟩ := Op.park.inj (park.symm.trans park')
    rcases Machine.memPerformed.mp member with old | new
    · rcases peersAfter o w.shared there with kept | rfl
      · exact ih kept b old uuid stream taken rfl
      · -- it would be parked only now, after it was taken
        have own := parkTask after Machine.happened rfl
        have last := kindOnceEach after inside Machine.happened (mine.symm.trans own) (by rw [park]; rfl)
        have bound := Machine.olderPosition before old
        rw [last] at earlier
        exact absurd earlier (Nat.not_lt.mpr (Nat.le_of_lt bound))
    · subst new
      injection taken with op _
      subst op
      simp [Machine.performed,machine,exec] at there
  · intro w e _ _ ih; exact ih

theorem takenOnce (empty : s.peers = ∅) (reach : (machine key).Reach ok s w) {b b' uuid uuid' stream stream'}
    (left : b ∈ w.log) (right : b' ∈ w.log) (one : b.did = ⟨.take uuid,some stream⟩)
    (other : b'.did = ⟨.take uuid',some stream'⟩) (same : stream.task = stream'.task) : ¬ b.pos < b'.pos := by
  intro less
  obtain ⟨v,reached,_,shared,history,resp,_⟩ := Machine.moment reach right
  rw [other] at resp
  have found : v.shared.peers.lookup uuid' = some stream' := by rw [shared]; exact resp.symm
  exact parkedUntaken empty reached found b ((history b).mpr ⟨left,less⟩) uuid stream one same

/- A redeemed ticket is spent. -/
theorem redeemedSpent (reach : (machine key).Reach ok s w) : ∀ e ∈ w.log, ∀ ticket relayId admitted,
    e.did = ⟨.redeem ticket relayId admitted,true⟩ → ticket ∈ w.shared.spent := by
  refine Machine.invariant (I := fun w => ∀ e ∈ w.log, ∀ ticket relayId admitted,
    e.did = ⟨.redeem ticket relayId admitted,true⟩ → ticket ∈ w.shared.spent) ?_ ?_ ?_ ?_ reach
  · intro e member; simp [Machine.initial] at member
  · intro w c _ _ ih; exact ih
  · intro w i c o next _ _ _ _ ih e member ticket relayId admitted did
    rcases Machine.memPerformed.mp member with old | new
    · exact spentGrows o w.shared (ih e old ticket relayId admitted did)
    · subst new
      injection did with op resp
      subst op
      have hit : (exec (.redeem ticket relayId admitted) w.shared).1 = true := eq_of_heq resp
      simp only [Machine.performed,machine,exec] at hit ⊢
      split at hit
      · rename_i fresh
        rw [if_pos fresh]
        exact List.mem_cons_self
      · contradiction
  · intro w e _ _ ih; exact ih

theorem redeemedOnce (reach : (machine key).Reach ok s w) {e e' ticket relayId relayId' admitted admitted'}
    (left : e ∈ w.log) (right : e' ∈ w.log) (one : e.did = ⟨.redeem ticket relayId admitted,true⟩)
    (other : e'.did = ⟨.redeem ticket relayId' admitted',true⟩) : ¬ e.pos < e'.pos := by
  intro less
  obtain ⟨v,reached,_,shared,history,resp,_⟩ := Machine.moment reach right
  have spent := redeemedSpent reached e ((history e).mpr ⟨left,less⟩) _ _ _ one
  rw [other] at resp
  have hit : (exec (.redeem ticket relayId' admitted') e'.before).1 = true := resp.symm
  simp only [exec] at hit
  split at hit
  · rename_i fresh
    exact fresh.2 (by rw [← shared]; exact spent)
  · contradiction

end Runs

/- What a stream must have passed before it is relayed. -/
structure Cleared (key : String) (w : World) (i pos : Nat) (rf : RequestRelay) : Prop where
  received : ∃ c, w.calls[i]? = some c ∧ c.received = .requestRelay rf
  named : rf.uuid ≠ ""
  keyed : key ≠ "" → rf.licenceKey = key
  redeemed : ∃ e ∈ w.log, e.task = i ∧ e.pos < pos ∧
    ∃ admitted, e.did = ⟨.redeem rf.token rf.uuid admitted,true⟩

section Safety
variable {key : String} {ok : World → Act Call Nat → Prop} {s : State} {w : World}

theorem admittedCleared (reach : (machine key).Reach ok s w) {e} (inside : e ∈ w.log) {done rf}
    (past : ∀ d ∈ done, ∃ a ∈ w.log, a.task = e.task ∧ a.pos < e.pos ∧ a.did = d)
    (admitted : Admitted key e.call done rf) {pos} (later : e.pos ≤ pos) : Cleared key w e.task pos rf := by
  obtain ⟨received,named,keyed,redeemed⟩ := admitted
  obtain ⟨t,found,called⟩ := Machine.eventTask reach e inside
  obtain ⟨a,kept,task,less,did⟩ := past _ redeemed
  exact ⟨⟨e.call,by rw [callAt found,called],received⟩,named,keyed,a,kept,task,by omega,_,did⟩

/- The stations behind a relay: its own lookup found the other stream, which was parked
by its own task before. -/
theorem relayStations (empty : s.peers = ∅) (reach : (machine key).Reach ok s w) {e addr stream peer id}
    (inside : e ∈ w.log) (relay : e.did.1 = .relay addr stream peer id) :
    stream.task = e.task ∧ ∃ rf rf', Cleared key w e.task e.pos rf ∧ Cleared key w peer.task e.pos rf' ∧
      rf.uuid = rf'.uuid ∧ ∃ b ∈ w.log, b.task = e.task ∧ ∃ found, found.task = peer.task ∧
        b.did = ⟨.take rf.uuid,some found⟩ ∧ ∃ d ∈ w.log, d.task = peer.task ∧ d.did.1 = .park rf.uuid found := by
  obtain ⟨done,guard,past⟩ := behind reach inside
  rw [relay] at guard
  obtain ⟨rf,admitted,mine,found,take,same⟩ := guard
  obtain ⟨b,taken,task,less,did⟩ := past _ take
  obtain ⟨d,parked,park,before⟩ := takenParked empty reach taken did
  have owner := parkTask reach parked park
  obtain ⟨done',guard',past'⟩ := behind reach parked
  rw [park] at guard'
  obtain ⟨rf',admitted',uuid,_⟩ := guard'
  have earlier : d.pos ≤ e.pos := by omega
  have cleared := admittedCleared reach parked past' admitted' earlier
  have peerTask : d.task = peer.task := by rw [← owner,same]
  rw [peerTask] at cleared
  exact ⟨mine,rf,rf',admittedCleared reach inside past admitted (Nat.le_refl _),cleared,uuid.symm,
    b,taken,task,found,same.symm,did,d,parked,peerTask,park⟩

/- A task that found a partner does not park. -/
theorem takenNotParked (reach : (machine key).Reach ok s w) {b d uuid uuid' found stream}
    (left : b ∈ w.log) (right : d ∈ w.log) (taken : b.did = ⟨.take uuid,some found⟩)
    (park : d.did.1 = .park uuid' stream) : b.task ≠ d.task := by
  intro same
  obtain ⟨done,guard,past⟩ := behind reach right
  rw [park] at guard
  obtain ⟨rf,_,_,_,take⟩ := guard
  obtain ⟨a,inside,task,_,did⟩ := past _ take
  have one := kindOnceEach reach left inside (same.trans task.symm) (by rw [taken,did]; rfl)
  rw [one,did] at taken
  injection taken with op resp
  cases op
  cases resp

end Safety

def relayed : Op → List Nat
  | .relay _ stream peer _ => [stream.task,peer.task]
  | _ => []

/- `relay()` joins two different streams, each cleared by its own ticket for the one uuid
they both asked for, and no stream is joined twice. -/
theorem relayJoinsClearedStreams {key : String} {now : Nat} {w : World}
    (reach : (machine key).Reach (fun _ _ => True) (State.init now) w) :
    (∀ e ∈ w.log, ∀ addr stream peer id, e.did.1 = .relay addr stream peer id →
      stream.task ≠ peer.task ∧ ∃ rf rf', Cleared key w stream.task e.pos rf ∧
        Cleared key w peer.task e.pos rf' ∧ rf.uuid = rf'.uuid ∧ rf.token ≠ rf'.token) ∧
    ∀ e ∈ w.log, ∀ e' ∈ w.log, ∀ i ∈ relayed e.did.1, i ∈ relayed e'.did.1 → e = e' := by
  have empty : (State.init now).peers = ∅ := rfl
  constructor
  · intro e inside addr stream peer id relay
    obtain ⟨mine,rf,rf',cleared,cleared',uuid,b,taken,task,found,owner,did,d,parked,parkTask,park⟩ :=
      relayStations empty reach inside relay
    have apart := takenNotParked reach taken parked did park
    rw [task,parkTask] at apart
    rw [mine]
    refine ⟨apart,rf,rf',cleared,cleared',uuid,fun token => ?_⟩
    obtain ⟨a,inside,aTask,_,_,redeem⟩ := cleared.redeemed
    obtain ⟨a',inside',aTask',_,_,redeem'⟩ := cleared'.redeemed
    rw [token] at redeem
    have before := redeemedOnce reach inside inside' redeem redeem'
    have after := redeemedOnce reach inside' inside redeem' redeem
    have same := Machine.samePosition reach inside inside' (by omega)
    rw [← aTask,← aTask',same] at apart
    exact apart rfl
  · intro e inside e' inside' i member member'
    match relay : e.did.1,relay' : e'.did.1,member,member' with
    | .relay addr stream peer id,.relay addr' stream' peer' id',member,member' =>
      obtain ⟨mine,rf,_,_,_,_,b,taken,task,found,owner,did,d,parked,parkTask,park⟩ :=
        relayStations empty reach inside relay
      obtain ⟨mine',rf',_,_,_,_,b',taken',task',found',owner',did',d',parked',parkTask',park'⟩ :=
        relayStations empty reach inside' relay'
      have kind : e.did.1.ctorIdx = e'.did.1.ctorIdx := by rw [relay,relay']; rfl
      simp only [relayed,List.mem_cons,List.not_mem_nil,or_false] at member member'
      rcases member with rfl | rfl <;> rcases member' with same | same
      · exact kindOnceEach reach inside inside' (by omega) kind
      · -- the arriving stream of one would be the parked stream of the other
        exact absurd (by omega) (takenNotParked reach taken parked' did park')
      · exact absurd (by omega) (takenNotParked reach taken' parked did' park)
      · have before := takenOnce empty reach taken taken' did did' (by omega)
        have after := takenOnce empty reach taken' taken did' did (by omega)
        have one := Machine.samePosition reach taken taken' (by omega)
        rw [one] at task
        exact kindOnceEach reach inside inside' (by omega) kind

def asking (token : String) (port : Nat) : Call where
  addr := ⟨"192.0.2.1",port⟩
  ws := false
  received := .requestRelay ⟨token,"relay-1","secret"⟩
  redeemer := .http .connectError (.response true (some true))

/- Two streams for relay-1: the first parks, the second finds it. -/
def joinedActs : List (Act Call Nat) := [
  .start (asking "ticket-a" 1000),.advance 0,.advance 0,.advance 0,.advance 0,
  .start (asking "ticket-b" 1001),.advance 1,.advance 1,.advance 1,.advance 1,.advance 1]

theorem twoStreamsJoined : ∃ w, (machine "secret").Reach (fun _ _ => True) (State.init 0) w ∧
    ∃ e ∈ w.log, relayed e.did.1 = [1,0] ∧
      (∃ rf rf', Cleared "secret" w 1 e.pos rf ∧ Cleared "secret" w 0 e.pos rf' ∧
        rf.uuid = rf'.uuid ∧ rf.token ≠ rf'.token) ∧
      ∀ e' ∈ w.log, 0 ∈ relayed e'.did.1 → e = e' := by
  obtain ⟨w,reach,shown⟩ := Machine.reachWith (fun _ _ => True) (fun _ _ => true)
    (fun _ _ _ => trivial) joinedActs (m := machine "secret") (s := State.init 0)
    (P := fun w => w.log.any fun e => relayed e.did.1 = [1,0]) (by decide +kernel)
  obtain ⟨e,inside,joined⟩ := List.any_eq_true.mp shown
  have streams := of_decide_eq_true joined
  obtain ⟨cleared,once⟩ := relayJoinsClearedStreams reach
  refine ⟨w,reach,e,inside,streams,?_,fun e' inside' member => once e inside e' inside' 0 (by simp [streams]) member⟩
  match relay : e.did.1,streams with
  | .relay addr stream peer id,streams =>
    obtain ⟨_,rf,rf',first,second,rest⟩ := cleared e inside addr stream peer id relay
    simp only [relayed,List.cons.injEq] at streams
    rw [streams.1] at first
    rw [streams.2.1] at second
    exact ⟨rf,rf',first,second,rest⟩

end OpenuuServer.RelayPairing
