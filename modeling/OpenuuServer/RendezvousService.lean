import OpenuuServer.RendezvousPrograms

/-! The discipline of hbbs's handlers with connections and their sinks: what a task may do given
what it did before, and that one task at a time serves a connection. -/
namespace OpenuuServer.RendezvousService
open AtomicProgram RendezvousMessages RendezvousServer RendezvousPrograms
open PeerRegistry (Bytes SocketAddr LockPeer Registry Outage)

/- The connection on whose behalf a call runs, and the one a sink writes to. -/
def behalf : Call → Option Conn
  | .accept conn _ _ | .tcp conn _ _ | .close conn => some conn
  | _ => none

def owner : Sink → Option Conn
  | .tcpStream conn _ | .ws conn => some conn
  | .closed => none

/- The sink that a send has taken out of `tcp_peers` and not come to put back yet. -/
def heldAfter (d : Did Op Resp) (h : Option (SocketAddr × Sink)) : Option (SocketAddr × Sink) :=
  match d with
  | ⟨.peersTake key,some sink⟩ => if sink = .closed then h else some (key,sink)
  | ⟨.peersPutBack _ _,_⟩ => none
  | _ => h

def held (done : List (Did Op Resp)) : Option (SocketAddr × Sink) := done.foldl (fun h d => heldAfter d h) none

def servesAfter (d : Did Op Resp) (b : Bool) : Bool :=
  match d.1 with
  | .connect _ _ | .receive _ _ => true
  | .served _ | .disconnect _ => false
  | _ => b

def serves (done : List (Did Op Resp)) : Bool := done.foldl (fun b d => servesAfter d b) false

/- The end of `handle_listener_inner` has just found its sink gone. -/
def parting (done : List (Did Op Resp)) : Bool :=
  match done.getLast? with
  | some ⟨.readSink _,none⟩ => true
  | _ => false

/- No task comes to receive from a connection that is not there. -/
def unready : Did Op Resp → Bool
  | ⟨.receive _ _,none⟩ => true
  | _ => false

def Real (done : List (Did Op Resp)) : Prop := ∀ d ∈ done, unready d = false

section Discipline
variable (lib : Library) (c : Call) (done : List (Did Op Resp))

def Serves (conn : Conn) : Prop := behalf c = some conn ∧ serves done = true

/- Where a sink comes from that a message is written to: unless it is the first message on a new
connection, the sink was looked up right before. -/
def Written (sink : Sink) : Prop :=
  (∃ conn secret publicKey config, c = .accept conn secret publicKey ∧ sink = .tcpStream conn none ∧
    done.getLast? = some ⟨.connect conn config,()⟩) ∨
  (∃ conn, Serves c done conn ∧ done.getLast? = some ⟨.readSink conn,some sink⟩) ∨
  (∃ key, done.getLast? = some ⟨.punchRemove key,some sink⟩) ∨
  ∃ key, held done = some (key,sink) ∧ done.getLast? = some ⟨.peersTake key,some sink⟩

def Due : Op → Prop
  | .connect conn _ => ∃ secret publicKey, c = .accept conn secret publicKey
  | .receive conn _ => behalf c = some conn ∧ done = []
  | .served conn | .disconnect conn | .readSink conn | .takeSink conn => Serves c done conn
  | .offerKey conn (some secret) => Serves c done conn ∧ ∃ publicKey, c = .accept conn secret publicKey
  | .offerKey conn none => ∃ frame draws link bytes, c = .tcp conn frame draws ∧
    done = [⟨.receive conn (some frame),some link⟩] ∧ treat lib link frame = .handle bytes
  | .secure conn key => ∃ frame draws link, c = .tcp conn frame draws ∧
    done = [⟨.receive conn (some frame),some link⟩] ∧ treat lib link frame = .exchange key
  | .punchInsert key sink | .peersInsert key sink =>
    ∃ conn, Serves c done conn ∧ key = lib.tryIntoV4 conn.addr ∧ ⟨.takeSink conn,some sink⟩ ∈ done
  | .peersRemove key => ∃ conn, Serves c done conn ∧ key = lib.tryIntoV4 conn.addr
  | .punchRemove key => parting done = true → ∃ conn, Serves c done conn ∧ key = lib.tryIntoV4 conn.addr
  | .peersTake _ => held done = none
  | .peersPutBack key sink => held done = some (key,sink)
  | .send (.sink sink) _ => Written c done sink
  | _ => True

/- The operations that the discipline is not about. -/
def plain : Op → Bool
  | .connect _ _ | .receive _ _ | .served _ | .disconnect _ | .readSink _ | .takeSink _ | .offerKey _ _ | .secure _ _
  | .punchInsert _ _ | .peersInsert _ _ | .peersRemove _ | .punchRemove _ | .peersTake _ | .peersPutBack _ _
  | .send (.sink _) _ => false
  | _ => true

/- Between two parts of a handler. -/
structure Between (b : Bool) : Prop where
  idle : held done = none
  serving : serves done = b
  staying : parting done = false

end Discipline

/- A part of a program keeps to the discipline, and its task serves a connection in the end. -/
def Keeps {α : Type} (lib : Library) (c : Call) (b : Bool) (p : Prog Op Resp α) (done : List (Did Op Resp)) : Prop :=
  p.Along (fun done o => Real done → Due lib c done o) (fun done _ => Real done → Between done b) done

def Steady {α : Type} (lib : Library) (c : Call) (b b' : Bool) (p : Prog Op Resp α) : Prop :=
  ∀ done, (Real done → Between done b) → Keeps lib c b' p done

@[simp] theorem heldLast (done : List (Did Op Resp)) (d : Did Op Resp) :
    held (done ++ [d]) = heldAfter d (held done) := by simp [held]
@[simp] theorem servesLast (done : List (Did Op Resp)) (d : Did Op Resp) :
    serves (done ++ [d]) = servesAfter d (serves done) := by simp [serves]
@[simp] theorem partingLast (done : List (Did Op Resp)) (d : Did Op Resp) :
    parting (done ++ [d]) = parting [d] := by simp [parting]
@[simp] theorem realLast {done : List (Did Op Resp)} {d : Did Op Resp} :
    Real (done ++ [d]) ↔ Real done ∧ unready d = false := by
  simp [Real,or_imp,forall_and]

section Parts
variable {α β : Type} {lib : Library} {c : Call} {b b' b'' : Bool} {config : Config} {key : String} {conn : Conn}
variable {draws : Draws}

theorem steadyRet (value : α) : Steady lib c b b (.ret value : Prog Op Resp α) := fun _ between => between

theorem keepsBind {p : Prog Op Resp α} {k : α → Prog Op Resp β} {done} (first : Keeps lib c b p done)
    (second : ∀ value, Steady lib c b b' (k value)) : Keeps lib c b' (p >>= k) done :=
  alongBind.mpr (alongMono (fun _ value between => second value _ between) first)

theorem steadyBind {p : Prog Op Resp α} {k : α → Prog Op Resp β} (first : Steady lib c b b' p)
    (second : ∀ value, Steady lib c b' b'' (k value)) : Steady lib c b b'' (p >>= k) :=
  fun done between => keepsBind (first done between) second

theorem steadyIte {q : Prop} [Decidable q] {x y : Prog Op Resp α} (left : Steady lib c b b' x)
    (right : Steady lib c b b' y) : Steady lib c b b' (if q then x else y) := by
  split
  · exact left
  · exact right

theorem plainDue {done : List (Did Op Resp)} {o : Op} (free : plain o = true) : Due lib c done o := by
  unfold plain at free
  split at free <;> first | contradiction | skip
  unfold Due
  split <;> first | trivial | simp_all

theorem betweenAfter {done : List (Did Op Resp)} {d : Did Op Resp} (idle : ∀ h, heldAfter d h = h)
    (serving : ∀ b, servesAfter d b = b) (staying : parting [d] = false) (between : Between done b) :
    Between (done ++ [d]) b :=
  ⟨by rw [heldLast,idle,between.idle],by rw [servesLast,serving,between.serving],by rw [partingLast,staying]⟩

theorem plainAfter {done : List (Did Op Resp)} {o : Op} {r : Resp o} (free : plain o = true)
    (between : Between done b) : Between (done ++ [⟨o,r⟩]) b := by
  refine betweenAfter (fun h => ?_) (fun b => ?_) ?_ between <;> cases o <;> first | rfl | contradiction

theorem steadyOp {o : Op} {next : Resp o → Prog Op Resp α} (free : plain o = true)
    (rest : ∀ r, Steady lib c b b' (next r)) : Steady lib c b b' (.op o next) :=
  fun _ between => ⟨fun _ => plainDue free,fun r => rest r _ fun real => plainAfter free (between (realLast.mp real).1)⟩

theorem steadyEvery {p : Prog Op Resp α} (free : p.Every fun o => plain o = true) : Steady lib c b b p := by
  induction p with
  | ret value => exact steadyRet value
  | op o next ih => exact steadyOp free.1 fun r => ih r (free.2 r)

theorem steadyAct (o : Op) (free : plain o = true) : Steady lib c b b (act o) := steadyOp free fun _ => steadyRet _

theorem sendKeeps {done : List (Did Op Resp)} {sink : Option Sink} {msg : Message}
    (written : ∀ s, sink = some s → Real done → Written c done s) (between : Real done → Between done b) :
    Keeps lib c b (sendToSink sink msg) done := by
  unfold sendToSink act
  split
  · exact between
  · exact between
  · rename_i live _
    exact ⟨written live rfl,fun _ real =>
      betweenAfter (fun _ => rfl) (fun _ => rfl) rfl (between (realLast.mp real).1)⟩

theorem sendLive {sink : Sink} {msg : Message} (live : sink = .closed → False) :
    sendToSink (some sink) msg = act (.send (.sink sink) msg) := by
  cases sink with
  | closed => exact absurd rfl live
  | _ => rfl

/- A send takes the sink, writes, and puts it back; nothing else lies in between. -/
theorem peerSendKeeps {done : List (Did Op Resp)} {addr : SocketAddr} {msg : Message}
    (idle : Real done → held done = none) (serving : Real done → serves done = b) :
    Keeps lib c b (sendToTcpPeer lib addr msg) done := by
  unfold sendToTcpPeer act
  simp only [performIs,bindOp,bindRet]
  refine ⟨idle,fun taken => ?_⟩
  dsimp only
  split
  · intro real
    have earlier := (realLast.mp real).1
    exact ⟨(heldLast _ _).trans (idle earlier),(servesLast _ _).trans (serving earlier),partingLast _ _⟩
  · intro real
    have earlier := (realLast.mp real).1
    exact ⟨(heldLast _ _).trans (idle earlier),(servesLast _ _).trans (serving earlier),partingLast _ _⟩
  · rename_i sink live
    rw [sendLive live]
    have holds : Real (done ++ [⟨.peersTake (lib.tryIntoV4 addr),some sink⟩]) →
        held (done ++ [⟨.peersTake (lib.tryIntoV4 addr),some sink⟩]) = some (lib.tryIntoV4 addr,sink) := by
      intro real
      rw [heldLast,idle (realLast.mp real).1]
      exact if_neg live
    refine ⟨fun real => .inr (.inr (.inr ⟨_,holds real,by simp⟩)),fun _ => ⟨fun real => ?_,fun _ real => ?_⟩⟩
    · exact (heldLast _ _).trans (holds (realLast.mp real).1)
    · have earlier := (realLast.mp (realLast.mp (realLast.mp real).1).1).1
      refine ⟨heldLast _ _,?_,partingLast _ _⟩
      simp only [servesLast]
      exact serving earlier

theorem steadySendToTcpPeer (addr : SocketAddr) (msg : Message) : Steady lib c b b (sendToTcpPeer lib addr msg) :=
  fun _ between => peerSendKeeps (fun real => (between real).idle) fun real => (between real).serving

theorem steadyReply (mine : behalf c = some conn) (msg : Message) : Steady lib c true true (replyOnConnection lib conn msg) := by
  intro done between
  unfold replyOnConnection act
  simp only [performIs,bindOp,bindRet]
  refine ⟨fun real => ⟨mine,(between real).serving⟩,fun sink => ?_⟩
  have idle : Real (done ++ [⟨.readSink conn,sink⟩]) → held (done ++ [⟨.readSink conn,sink⟩]) = none := by
    intro real
    exact (heldLast _ _).trans (between (realLast.mp real).1).idle
  have serving : Real (done ++ [⟨.readSink conn,sink⟩]) → serves (done ++ [⟨.readSink conn,sink⟩]) = true := by
    intro real
    exact (servesLast _ _).trans (between (realLast.mp real).1).serving
  cases (sink : Option Sink) with
  | none => exact keepsBind (peerSendKeeps idle serving) fun _ => steadyRet _
  | some s =>
    refine sendKeeps (fun s' same real => .inr (.inl ⟨conn,⟨mine,serving real⟩,?_⟩)) fun real => ?_
    · simp [same]
    · exact ⟨idle real,serving real,partingLast _ _⟩

theorem steadySendToTcp (msg : Message) (addr : SocketAddr) : Steady lib c b b (sendToTcp lib msg addr) := by
  intro done between
  unfold sendToTcp act
  simp only [performIs,bindOp,bindRet]
  refine ⟨fun real parts => ?_,fun tcp => ?_⟩
  · rw [(between real).staying] at parts
    cases parts
  have idle : Real (done ++ [⟨.punchRemove (lib.tryIntoV4 addr),tcp⟩]) →
      held (done ++ [⟨.punchRemove (lib.tryIntoV4 addr),tcp⟩]) = none := by
    intro real
    exact (heldLast _ _).trans (between (realLast.mp real).1).idle
  have serving : Real (done ++ [⟨.punchRemove (lib.tryIntoV4 addr),tcp⟩]) →
      serves (done ++ [⟨.punchRemove (lib.tryIntoV4 addr),tcp⟩]) = b := by
    intro real
    exact (servesLast _ _).trans (between (realLast.mp real).1).serving
  cases (tcp : Option Sink) with
  | none => exact keepsBind (peerSendKeeps idle serving) fun _ => steadyRet _
  | some s =>
    refine sendKeeps (fun s' same real => .inr (.inr (.inl ⟨lib.tryIntoV4 addr,?_⟩))) fun real => ?_
    · simp [same]
    · exact ⟨idle real,serving real,partingLast _ _⟩

/- The sink of the connection goes into one of the maps. -/
theorem steadyTake (mine : behalf c = some conn) {next : Option Sink → Prog Op Resp α} {rest : Prog Op Resp α}
    {store : Sink → Op} (stores : ∀ s, store s = .punchInsert (lib.tryIntoV4 conn.addr) s ∨
      store s = .peersInsert (lib.tryIntoV4 conn.addr) s)
    (absent : next none = rest) (present : ∀ s, next (some s) = .op (store s) fun _ => rest)
    (steady : Steady lib c true b rest) : Steady lib c true b (.op (.takeSink conn) next) := by
  intro done between
  refine ⟨fun real => ⟨mine,(between real).serving⟩,fun sink => ?_⟩
  have after : Real (done ++ [⟨.takeSink conn,sink⟩]) → Between (done ++ [⟨.takeSink conn,sink⟩]) true := by
    intro real
    exact betweenAfter (fun _ => rfl) (fun _ => rfl) rfl (between (realLast.mp real).1)
  cases (sink : Option Sink) with
  | none =>
    rw [absent]
    exact steady _ after
  | some s =>
    rw [present]
    have due : Real (done ++ [⟨.takeSink conn,some s⟩]) → ∃ conn', Serves c (done ++ [⟨.takeSink conn,some s⟩]) conn' ∧
        lib.tryIntoV4 conn.addr = lib.tryIntoV4 conn'.addr ∧ ⟨.takeSink conn',some s⟩ ∈ done ++ [⟨.takeSink conn,some s⟩] :=
      fun real => ⟨conn,⟨mine,(after real).serving⟩,rfl,by simp⟩
    rcases stores s with same | same
    · rw [same]
      exact ⟨due,fun _ => steady _ fun real =>
        betweenAfter (fun _ => rfl) (fun _ => rfl) rfl (after (realLast.mp real).1)⟩
    · rw [same]
      exact ⟨due,fun _ => steady _ fun real =>
        betweenAfter (fun _ => rfl) (fun _ => rfl) rfl (after (realLast.mp real).1)⟩

theorem steadyAdopt (mine : behalf c = some conn) : Steady lib c true true (adoptSink lib conn) :=
  steadyTake mine (fun _ => .inr rfl) rfl (fun _ => rfl) (steadyRet ())

theorem steadyServed (mine : behalf c = some conn) : Steady lib c true false (act (.served conn)) := by
  intro done between
  refine ⟨fun real => ⟨mine,(between real).serving⟩,fun _ real => ?_⟩
  have idle := (between (realLast.mp real).1).idle
  exact ⟨(heldLast _ _).trans idle,servesLast _ _,partingLast _ _⟩

theorem steadyClosing (mine : behalf c = some conn) : Steady lib c true false (closing lib conn) := by
  intro done between
  have rest : ∀ done', (Real done' → serves done' = true) → (Real done' → held done' = none) →
      Keeps lib c false (act (.peersRemove (lib.tryIntoV4 conn.addr)) >>= fun _ => act (.disconnect conn)) done' := by
    intro done' serving idle
    refine ⟨fun real => ⟨conn,⟨mine,serving real⟩,rfl⟩,fun _ => ⟨fun real => ?_,fun _ real => ?_⟩⟩
    · exact ⟨mine,(servesLast _ _).trans (serving (realLast.mp real).1)⟩
    · have earlier := (realLast.mp (realLast.mp real).1).1
      refine ⟨?_,servesLast _ _,partingLast _ _⟩
      simp only [heldLast]
      exact idle earlier
  unfold closing act
  simp only [performIs,bindOp,bindRet]
  refine ⟨fun real => ⟨mine,(between real).serving⟩,fun sink => ?_⟩
  have serving : Real (done ++ [⟨.readSink conn,sink⟩]) → serves (done ++ [⟨.readSink conn,sink⟩]) = true :=
    fun real => (servesLast _ _).trans (between (realLast.mp real).1).serving
  have idle : Real (done ++ [⟨.readSink conn,sink⟩]) → held (done ++ [⟨.readSink conn,sink⟩]) = none :=
    fun real => (heldLast _ _).trans (between (realLast.mp real).1).idle
  cases (sink : Option Sink) with
  | none =>
    exact ⟨fun real _ => ⟨conn,⟨mine,serving real⟩,rfl⟩,fun _ => rest _
      (fun real => (servesLast _ _).trans (serving (realLast.mp real).1))
      fun real => (heldLast _ _).trans (idle (realLast.mp real).1)⟩
  | some s => exact rest _ serving idle

theorem plainInner {o : Op} (free : RendezvousPrograms.inner o = true) : plain o = true := by
  unfold RendezvousPrograms.inner at free
  split at free <;> first | contradiction | rfl

/- The handling of a message, put together from its parts. -/
theorem steadyParts (mine : behalf c = some conn) : RendezvousPrograms.Parts lib conn fun _ p => Steady lib c true true p where
  ret _ := steadyRet _
  bind := steadyBind
  op free rest := steadyOp (plainInner free) rest
  peer _ _ := steadySendToTcpPeer _ _
  reply _ := steadyReply mine _
  answer _ _ := steadySendToTcp _ _
  adopt := steadyAdopt mine
  park absent present rest := steadyTake mine (fun _ => .inl rfl) absent present rest

theorem steadyHandleUdp (addr : SocketAddr) (bytes : Bytes) : Steady lib c b b (handleUdp lib config addr bytes draws) :=
  steadyEvery (everyUdp (fun _ => rfl) (fun _ => rfl) (fun _ => rfl) bytes)

theorem steadyOnlineList (peers : List String) : Steady lib c b b (onlineList peers) :=
  steadyEvery (everyOnlineList (fun _ => rfl) (fun _ => rfl) peers)

theorem steadyTurning {body : Config → Prog Op Resp α} (all : ∀ config, Steady lib c b b (body config)) :
    Steady lib c b b (turning body) :=
  steadyBind (steadyAct _ rfl) fun config => steadyBind (all config) fun _ => steadyBind (steadyAct _ rfl) fun _ => steadyRet _

theorem steadyDeliver (msg : Message) (addr : SocketAddr) : Steady lib c b b (deliver lib msg addr) :=
  steadyBind (steadySendToTcpPeer _ _) fun _ => steadyIte (steadyAct _ rfl) (steadyRet _)

/- A frame, once it was received. -/
theorem keepsServe (frame : Bytes) (link : Link) : Keeps lib (.tcp conn frame draws) false
    (serve lib key conn frame draws link) [⟨.receive conn (some frame),some link⟩] := by
  have mine : behalf (.tcp conn frame draws) = some conn := rfl
  have received : Between [⟨.receive conn (some frame),some link⟩] true := ⟨rfl,rfl,rfl⟩
  have rest : ∀ bytes, Steady lib (.tcp conn frame draws) true false
      (handleTcp lib link.config key conn bytes draws >>= fun keep => if keep then act (.served conn) else closing lib conn) :=
    fun bytes => steadyBind ((steadyParts mine).handleTcp bytes) fun keep => steadyIte (steadyServed mine) (steadyClosing mine)
  unfold serve
  split
  · rename_i symmetric agreed
    refine ⟨fun _ => ⟨frame,draws,link,rfl,rfl,agreed⟩,fun _ => steadyServed mine _ fun _ => ?_⟩
    exact betweenAfter (fun _ => rfl) (fun _ => rfl) rfl received
  · exact steadyClosing mine _ fun _ => received
  · rename_i bytes treated
    split
    · refine ⟨fun _ => ⟨frame,draws,link,bytes,rfl,rfl,treated⟩,fun _ => rest bytes _ fun _ => ?_⟩
      exact betweenAfter (fun _ => rfl) (fun _ => rfl) rfl received
    · exact rest bytes _ fun _ => received

theorem keepsAccept (secret publicKey : Bytes) :
    Keeps lib (.accept conn secret publicKey) false (program lib key (.accept conn secret publicKey)) [] := by
  have mine : behalf (.accept conn secret publicKey) = some conn := rfl
  have turn : Steady lib (.accept conn secret publicKey) false false (turning pure) := steadyTurning fun _ => steadyRet _
  refine keepsBind (turn [] fun _ => ⟨rfl,rfl,rfl⟩) fun config done between => ⟨fun _ => ⟨secret,publicKey,rfl⟩,fun _ => ?_⟩
  have connected : Real (done ++ [⟨.connect conn config,()⟩]) → Between (done ++ [⟨.connect conn config,()⟩]) true := by
    intro real
    have idle := (between (realLast.mp real).1).idle
    exact ⟨(heldLast _ _).trans idle,servesLast _ _,partingLast _ _⟩
  have done' : Steady lib (.accept conn secret publicKey) true false (act (.served conn)) := steadyServed mine
  refine alongIte.mpr ⟨fun _ => ?_,fun _ => done' _ connected⟩
  cases config.inner.sk with
  | none => exact done' _ connected
  | some sk =>
    refine ⟨fun _ => .inl ⟨conn,secret,publicKey,config,rfl,rfl,by simp⟩,fun _ => ⟨fun real => ?_,fun _ =>
      done' _ fun real => ?_⟩⟩
    · exact ⟨⟨mine,(servesLast _ _).trans (connected (realLast.mp real).1).serving⟩,publicKey,rfl⟩
    · refine betweenAfter (fun _ => rfl) (fun _ => rfl) rfl ?_
      exact betweenAfter (fun _ => rfl) (fun _ => rfl) rfl (connected (realLast.mp (realLast.mp real).1).1)

theorem keepsProgram (c : Call) : Keeps lib c false (program lib key c) [] := by
  have start : Real [] → Between [] false := fun _ => ⟨rfl,rfl,rfl⟩
  have turn : Steady lib c false false (turning pure) := steadyTurning fun _ => steadyRet _
  cases c with
  | account c => exact steadyBind (steadyEvery (everyAccount (fun _ => rfl) _)) (fun _ => steadyRet _) [] start
  | accept conn secret publicKey => exact keepsAccept secret publicKey
  | tcp conn frame draws =>
    refine ⟨fun _ => ⟨rfl,rfl⟩,fun link => ?_⟩
    cases (link : Option Link) with
    | none => exact fun real => absurd (real _ List.mem_cons_self) (by simp [unready])
    | some link => exact keepsServe frame link
  | close conn =>
    refine ⟨fun _ => ⟨rfl,rfl⟩,fun link => steadyClosing rfl _ fun _ => ⟨rfl,rfl,rfl⟩⟩
  | udp addr bytes draws => exact steadyTurning (fun _ => steadyHandleUdp _ _) [] start
  | turn =>
    refine steadyTurning (fun config => steadyOp rfl fun data => ?_) [] start
    cases (data : Option Data) with
    | none => exact steadyRet _
    | some data =>
      cases data with
      | msg m addr => exact steadyDeliver _ _
      | relayServers0 rs => exact steadyAct _ rfl
      | relayServers rs => exact steadyAct _ rfl
  | nat addr bytes =>
    refine steadyBind turn (fun config => steadyIte ?_ (steadyRet _)) [] start
    cases lib.parse bytes with
    | none => exact steadyRet _
    | some m =>
      cases m with
      | testNatRequest serial => exact steadyAct _ rfl
      | onlineRequest peers => exact steadyBind (steadyOnlineList peers) fun _ => steadyAct _ rfl
      | _ => exact steadyRet _
  | console addr cmd =>
    refine steadyBind turn (fun config => steadyIte ?_ (steadyRet _)) [] start
    cases cmd with
    | relayServers rs => exact steadyAct _ rfl
    | alwaysUseRelay arg => exact steadyOp rfl fun _ => steadyAct _ rfl
    | testGeo => exact steadyBind (steadyEvery (everyGetRelayServer rfl)) fun _ => steadyRet _
    | display => exact steadyRet _
    | _ => exact steadyAct _ rfl
  | relayCheck reachable =>
    refine steadyBind turn (fun config => steadyIte ?_ (steadyRet _)) [] start
    exact steadyIte (steadyAct _ rfl) (steadyRet _)
  | peerTransport =>
    exact steadyTurning (fun _ => steadyEvery (everyPeerTransport rfl (fun _ => rfl) rfl fun _ _ _ => rfl)) [] start
  | testHbbs addr => exact steadyAct _ rfl [] start

end Parts

/- What an operation makes of one entry of each map. -/
def linkAfter (conn : Conn) (l : Option Link) : Op → Option Link
  | .connect conn' config =>
    if conn = conn' then some ⟨config,some (if conn'.ws then .ws conn' else .tcpStream conn' none),none,none⟩ else l
  | .disconnect conn' => if conn = conn' then none else l
  | .receive conn' frame =>
    if conn = conn' then l.map fun link => { link with dec := link.dec.map fun d => (d.1,d.2 ++ frame.toList) } else l
  | .offerKey conn' secret => if conn = conn' then l.map fun link => { link with offer := secret } else l
  | .secure conn' key =>
    if conn = conn' then l.map fun link =>
      { link with sink := link.sink.map (encrypted key),offer := none,dec := some (key,[]) } else l
  | .takeSink conn' => if conn = conn' then l.map fun link => { link with sink := none } else l
  | _ => l

def peerAfter (key : SocketAddr) (l : Option Sink) : Op → Option Sink
  | .peersInsert key' sink => if key = key' then some sink else l
  | .peersTake key' => if key = key' then l.map fun _ => .closed else l
  | .peersPutBack key' sink => if key = key' ∧ l = some .closed then some sink else l
  | .peersRemove key' => if key = key' then none else l
  | _ => l

def punchAfter (key : SocketAddr) (l : Option Sink) : Op → Option Sink
  | .punchInsert key' sink => if key = key' then some sink else l
  | .punchRemove key' => if key = key' then none else l
  | _ => l

section Steps
variable {lib : Library} {expired : Nat → Nat}

theorem lookupRelink (s : Server) (conn conn' : Conn) (f : Link → Link) : (s.relink conn' f).links.lookup conn =
    if conn = conn' then (s.links.lookup conn).map f else s.links.lookup conn := by
  unfold Server.relink
  split
  · rename_i link found
    by_cases same : conn = conn'
    · subst same
      rw [if_pos rfl,found]
      exact AList.lookup_insert _
    · rw [if_neg same]
      exact AList.lookup_insert_ne same
  · rename_i absent
    by_cases same : conn = conn'
    · subst same
      rw [if_pos rfl,absent]
      rfl
    · rw [if_neg same]

theorem lookupInserted {α β : Type} [DecidableEq α] (a b : α) (value : β) (m : AList fun _ : α => β) :
    (m.insert b value).lookup a = if a = b then some value else m.lookup a := by
  by_cases same : a = b
  · subst same
    rw [if_pos rfl,AList.lookup_insert]
  · rw [if_neg same,AList.lookup_insert_ne same]

theorem lookupErased {α β : Type} [DecidableEq α] (a b : α) (m : AList fun _ : α => β) :
    (m.erase b).lookup a = if a = b then none else m.lookup a := by
  by_cases same : a = b
  · subst same
    rw [if_pos rfl,AList.lookup_erase]
  · rw [if_neg same,AList.lookup_erase_ne same]

theorem execLink (o : Op) (s : Server) (conn : Conn) :
    (exec lib expired o s).2.links.lookup conn = linkAfter conn (s.links.lookup conn) o := by
  cases o with
  | connect conn' config => exact lookupInserted _ _ _ _
  | disconnect conn' => exact lookupErased _ _ _
  | receive conn' frame => exact lookupRelink _ _ _ _
  | offerKey conn' secret => exact lookupRelink _ _ _ _
  | secure conn' key => exact lookupRelink _ _ _ _
  | takeSink conn' => exact lookupRelink _ _ _ _
  | peersTake key => simp only [exec,linkAfter]; split <;> rfl
  | peersPutBack key sink => simp only [exec,linkAfter]; split <;> rfl
  | recordPunch fromIp toIp toId => simp only [exec,linkAfter]; split <;> rfl
  | _ => rfl

theorem relinkPeers (s : Server) (conn : Conn) (f : Link → Link) :
    (s.relink conn f).tcpPeers = s.tcpPeers ∧ (s.relink conn f).tcpPunch = s.tcpPunch ∧
    (s.relink conn f).serving = s.serving ∧ (s.relink conn f).accepted = s.accepted := by
  unfold Server.relink
  split <;> exact ⟨rfl,rfl,rfl,rfl⟩

theorem execPeer (o : Op) (s : Server) (key : SocketAddr) :
    (exec lib expired o s).2.tcpPeers.lookup key = peerAfter key (s.tcpPeers.lookup key) o := by
  cases o with
  | peersInsert key' sink => exact lookupInserted _ _ _ _
  | peersRemove key' => exact lookupErased _ _ _
  | peersTake key' =>
    simp only [exec,peerAfter]
    by_cases same : key = key'
    · subst same
      rw [if_pos rfl]
      split
      · rename_i sink found
        rw [found]
        exact AList.lookup_insert _
      · rename_i absent
        rw [absent]
        rfl
    · rw [if_neg same]
      split
      · exact AList.lookup_insert_ne same
      · rfl
  | peersPutBack key' sink =>
    simp only [exec,peerAfter]
    by_cases same : key = key'
    · subst same
      by_cases closed : s.tcpPeers.lookup key = some .closed
      · rw [if_pos closed,if_pos ⟨rfl,closed⟩]
        exact AList.lookup_insert _
      · rw [if_neg closed,if_neg fun both => closed both.2]
    · have other : ¬ (key = key' ∧ s.tcpPeers.lookup key = some .closed) := fun both => same both.1
      by_cases closed : s.tcpPeers.lookup key' = some .closed
      · rw [if_pos closed,if_neg other]
        exact AList.lookup_insert_ne same
      · rw [if_neg closed,if_neg other]
  | receive conn frame => simp only [exec,peerAfter,(relinkPeers _ _ _).1]
  | offerKey conn secret => simp only [exec,peerAfter,(relinkPeers _ _ _).1]
  | secure conn symmetric => simp only [exec,peerAfter,(relinkPeers _ _ _).1]
  | takeSink conn => simp only [exec,peerAfter,(relinkPeers _ _ _).1]
  | recordPunch fromIp toIp toId => simp only [exec,peerAfter]; split <;> rfl
  | _ => rfl

theorem execPunch (o : Op) (s : Server) (key : SocketAddr) :
    (exec lib expired o s).2.tcpPunch.lookup key = punchAfter key (s.tcpPunch.lookup key) o := by
  cases o with
  | punchInsert key' sink => exact lookupInserted _ _ _ _
  | punchRemove key' => exact lookupErased _ _ _
  | peersTake key' => simp only [exec,punchAfter]; split <;> rfl
  | peersPutBack key' sink => simp only [exec,punchAfter]; split <;> rfl
  | receive conn frame => simp only [exec,punchAfter,(relinkPeers _ _ _).2.1]
  | offerKey conn secret => simp only [exec,punchAfter,(relinkPeers _ _ _).2.1]
  | secure conn symmetric => simp only [exec,punchAfter,(relinkPeers _ _ _).2.1]
  | takeSink conn => simp only [exec,punchAfter,(relinkPeers _ _ _).2.1]
  | recordPunch fromIp toIp toId => simp only [exec,punchAfter]; split <;> rfl
  | _ => rfl

theorem openAfter (conn : Conn) (l : Option Link) (o : Op) : (linkAfter conn l o).isSome = true ↔
    l.isSome = true ∧ o ≠ .disconnect conn ∨ ∃ config, o = .connect conn config := by
  have flip : ∀ other : Conn, other = conn ↔ conn = other := fun _ => eq_comm
  cases o with
  | connect other config => by_cases same : conn = other <;> simp [linkAfter,same,flip]
  | disconnect other => by_cases same : conn = other <;> simp [linkAfter,same,flip]
  | receive other frame => by_cases same : conn = other <;> simp [linkAfter,same]
  | offerKey other secret => by_cases same : conn = other <;> simp [linkAfter,same]
  | secure other symmetric => by_cases same : conn = other <;> simp [linkAfter,same]
  | takeSink other => by_cases same : conn = other <;> simp [linkAfter,same]
  | _ => simp [linkAfter]

/- Where the sink that a connection keeps for itself comes from. -/
theorem sinkAfter {conn : Conn} {l : Option Link} {o : Op} {link : Link} {sink : Sink} (found : linkAfter conn l o = some link)
    (inside : link.sink = some sink) :
    (∃ config, o = .connect conn config ∧ sink = if conn.ws then .ws conn else .tcpStream conn none) ∨
    ∃ link' sink', l = some link' ∧ link'.sink = some sink' ∧
      (sink = sink' ∨ ∃ key, o = .secure conn key ∧ sink = encrypted key sink') := by
  have kept : ∀ {link'}, l = some link' → link'.sink = some sink → ∃ link' sink', l = some link' ∧
      link'.sink = some sink' ∧ (sink = sink' ∨ ∃ key, o = .secure conn key ∧ sink = encrypted key sink') :=
    fun old same => ⟨_,_,old,same,.inl rfl⟩
  unfold linkAfter at found
  split at found
  · split at found
    · rename_i same
      subst same
      cases Option.some.inj found
      exact .inl ⟨_,rfl,(Option.some.inj inside).symm⟩
    · exact .inr (kept found inside)
  · split at found
    · cases found
    · exact .inr (kept found inside)
  · split at found
    · obtain ⟨link',old,rfl⟩ := Option.map_eq_some_iff.mp found
      exact .inr (kept old inside)
    · exact .inr (kept found inside)
  · split at found
    · obtain ⟨link',old,rfl⟩ := Option.map_eq_some_iff.mp found
      exact .inr (kept old inside)
    · exact .inr (kept found inside)
  · split at found
    · rename_i same
      subst same
      obtain ⟨link',old,rfl⟩ := Option.map_eq_some_iff.mp found
      obtain ⟨sink',had,rfl⟩ := Option.map_eq_some_iff.mp inside
      exact .inr ⟨link',sink',old,had,.inr ⟨_,rfl,rfl⟩⟩
    · exact .inr (kept found inside)
  · split at found
    · obtain ⟨link',old,rfl⟩ := Option.map_eq_some_iff.mp found
      cases inside
    · exact .inr (kept found inside)
  · exact .inr (kept found inside)

/- How an operation changes what its task holds. -/
theorem holdStep {o : Op} {s : Server} {h} {key sink}
    (holds : heldAfter ⟨o,(exec lib expired o s).1⟩ h = some (key,sink)) :
    (o = .peersTake key ∧ s.tcpPeers.lookup key = some sink ∧ sink ≠ .closed) ∨
    (h = some (key,sink) ∧ ∀ key' sink', o ≠ .peersPutBack key' sink') := by
  cases o with
  | peersTake key' =>
    simp only [exec] at holds
    cases slot : s.tcpPeers.lookup key' with
    | none =>
      simp only [slot] at holds
      exact .inr ⟨holds,by simp⟩
    | some sink' =>
      simp only [slot,heldAfter] at holds
      split at holds
      · exact .inr ⟨holds,by simp⟩
      · rename_i live
        cases Option.some.inj holds
        exact .inl ⟨rfl,slot,live⟩
  | peersPutBack key' sink' => cases holds
  | _ => exact .inr ⟨holds,by simp⟩

theorem takeHolds {s : Server} {h} {key sink} (there : s.tcpPeers.lookup key = some sink) (live : sink ≠ .closed) :
    heldAfter ⟨.peersTake key,(exec lib expired (.peersTake key) s).1⟩ h = some (key,sink) := by
  simp only [exec,there,heldAfter,if_neg live]

theorem heldLive {done : List (Did Op Resp)} : ∀ {key sink}, held done = some (key,sink) → sink ≠ .closed := by
  induction done using List.reverseRecOn with
  | nil =>
    intro key sink holds
    cases holds
  | append_singleton rest d ih =>
    intro key sink holds
    rw [heldLast] at holds
    unfold heldAfter at holds
    split at holds
    · split at holds
      · exact ih holds
      · rename_i live
        cases Option.some.inj holds
        exact live
    · cases holds
    · exact ih holds

/- A connection is served from the frame on until its handling ends. -/
theorem execServing (o : Op) (s : Server) (conn : Conn) : conn ∈ (exec lib expired o s).2.serving ↔
    (∃ frame, o = .receive conn frame) ∨ (∃ config, o = .connect conn config) ∨
      conn ∈ s.serving ∧ o ≠ .served conn ∧ o ≠ .disconnect conn := by
  have flip : ∀ other : Conn, conn = other ↔ other = conn := fun _ => eq_comm
  cases o with
  | connect other config => simp only [exec,List.mem_cons,flip]; simp
  | receive other frame => simp only [exec,List.mem_cons,flip]; simp
  | served other => simp only [exec,List.mem_filter,decide_eq_true_eq,ne_eq,flip]; simp
  | disconnect other => simp only [exec,List.mem_filter,decide_eq_true_eq,ne_eq,flip]; simp
  | offerKey other secret => simp only [exec,(relinkPeers _ _ _).2.2.1]; simp
  | secure other symmetric => simp only [exec,(relinkPeers _ _ _).2.2.1]; simp
  | takeSink other => simp only [exec,(relinkPeers _ _ _).2.2.1]; simp
  | peersTake key => simp only [exec]; split <;> simp
  | peersPutBack key sink => simp only [exec]; split <;> simp
  | recordPunch fromIp toIp toId => simp only [exec]; split <;> simp
  | _ => simp [exec]

theorem execAccepted (o : Op) (s : Server) (conn : Conn) :
    conn ∈ (exec lib expired o s).2.accepted ↔ conn ∈ s.accepted ∨ ∃ config, o = .connect conn config := by
  have flip : ∀ other : Conn, conn = other ↔ other = conn := fun _ => eq_comm
  cases o with
  | connect other config => simp only [exec,List.mem_cons,flip]; simp [or_comm]
  | receive other frame => simp only [exec,(relinkPeers _ _ _).2.2.2]; simp
  | offerKey other secret => simp only [exec,(relinkPeers _ _ _).2.2.2]; simp
  | secure other symmetric => simp only [exec,(relinkPeers _ _ _).2.2.2]; simp
  | takeSink other => simp only [exec,(relinkPeers _ _ _).2.2.2]; simp
  | peersTake key => simp only [exec]; split <;> simp
  | peersPutBack key sink => simp only [exec]; split <;> simp
  | recordPunch fromIp toIp toId => simp only [exec]; split <;> simp
  | _ => simp [exec]

end Steps

section Runs
variable {lib : Library} {expired : Nat → Nat} {key : String} {ok : World → Act Call Env → Prop} {s : Server} {w : World}

theorem realEvents (reach : (machine lib expired key).Reach ok s w) {e} (member : e ∈ w.log) : unready e.did = false := by
  obtain ⟨_,_,_,_,_,response,ready,_⟩ := Machine.moment reach member
  have did := Machine.didIs rfl response
  generalize e.did.1 = o at did ready
  rw [did]
  cases o with
  | receive conn frame =>
    obtain ⟨link,found⟩ := Option.isSome_iff_exists.mp (Bool.and_eq_true_iff.mp ready).1
    simp only [machine,exec,found,unready]
  | _ => rfl

theorem realDids (reach : (machine lib expired key).Reach ok s w) (i : Nat) : Real (w.didsOf i) := by
  intro d member
  obtain ⟨e,inside,_,rfl⟩ := didsOfMember.mp member
  exact realEvents reach inside

/- A task about to execute an operation keeps to the discipline, -/
theorem dueNext (reach : (machine lib expired key).Reach ok s w) {i c o} {next : Resp o → Prog Op Resp Unit}
    (found : w.tasks[i]? = some ⟨c,.op o next,true⟩) : Due lib c (w.didsOf i) o :=
  (everyAfterOnPath (Machine.taskPath reach found) (alongEvery (keepsProgram c))).1 (realDids reach i)

/- and so did every event. -/
theorem dueEvent (reach : (machine lib expired key).Reach ok s w) {e} (member : e ∈ w.log) :
    Due lib e.call ((w.past e).map Event.did) e.did.1 := by
  obtain ⟨next,path⟩ := Machine.eventPath reach member
  refine (everyAfterOnPath path (alongEvery (keepsProgram e.call))).1 fun d there => ?_
  obtain ⟨a,inside,rfl⟩ := List.mem_map.mp there
  exact realEvents reach (List.mem_filter.mp inside).1

theorem idleAtEnd (reach : (machine lib expired key).Reach ok s w) {i c}
    (done : w.Answered i c ()) : held (w.didsOf i) = none ∧ serves (w.didsOf i) = false := by
  obtain ⟨t,found,_,returned⟩ := done
  have path := Machine.taskPath reach found
  rw [returned] at path
  have between := endsOnPath (alongEnds (keepsProgram t.call)) path (realDids reach i)
  exact ⟨between.idle,between.serving⟩

section Step
variable {name : String} {i : Nat} {c : Call} {o : Op} {next : Resp o → Prog Op Resp Unit}

theorem heldPerformed (w : World) (j : Nat) :
    held (((machine lib expired name).performed w i c o next).didsOf j) =
      if i = j then heldAfter ⟨o,(exec lib expired o w.shared).1⟩ (held (w.didsOf j)) else held (w.didsOf j) := by
  rw [Machine.didsPerformed]
  split
  · rw [heldLast]
    rfl
  · rw [List.append_nil]

/- A sink stays with its send until the send puts it back. -/
theorem stillHeld (due : Due lib c (w.didsOf i) o) {j key sink} (holds : held (w.didsOf j) = some (key,sink))
    (kept : i = j → ∀ sink', o ≠ .peersPutBack key sink') :
    held (((machine lib expired name).performed w i c o next).didsOf j) = some (key,sink) := by
  rw [heldPerformed]
  split
  · rename_i same
    subst same
    cases o with
    | peersTake key' => exact absurd (holds.symm.trans due) (by simp)
    | peersPutBack key' sink' =>
      cases Option.some.inj (holds.symm.trans due)
      exact absurd rfl (kept rfl sink)
    | _ => exact holds
  · exact holds

end Step

/- A task that holds a sink is under way. -/
theorem holderRuns (reach : (machine lib expired key).Reach ok s w) {i h} (holds : held (w.didsOf i) = some h) : w.Running i := by
  have some : w.didsOf i ≠ [] := by
    intro nothing
    rw [nothing] at holds
    cases holds
  obtain ⟨d,done⟩ := List.exists_mem_of_ne_nil _ some
  obtain ⟨e,inside,rfl,_⟩ := didsOfMember.mp done
  obtain ⟨⟨c,prog,alive⟩,found,_⟩ := Machine.eventTask reach e inside
  have living : alive = true := Machine.stayAlive (fun _ => rfl) reach _ (List.mem_of_getElem? found)
  subst living
  cases prog with
  | ret value =>
    obtain ⟨idle,_⟩ := idleAtEnd reach (c := c) ⟨_,found,rfl,rfl⟩
    rw [idle] at holds
    cases holds
  | op o next => exact ⟨c,o,next,found⟩

/- A sink that a connection keeps for itself writes to it, -/
theorem keptSinkOwn (closed : s.links = ∅) (reach : (machine lib expired key).Reach ok s w) :
    ∀ conn link sink, w.shared.links.lookup conn = some link → link.sink = some sink → owner sink = some conn := by
  refine Machine.invariant (I := fun w => ∀ conn link sink, w.shared.links.lookup conn = some link →
    link.sink = some sink → owner sink = some conn) ?_ ?_ ?_ ?_ reach
  · intro conn link sink found _
    rw [Machine.initial,closed] at found
    cases found
  · intro w c _ _ ih; exact ih
  · intro w i c o next _ _ _ _ ih conn link sink found inside
    simp only [Machine.performed,machine,execLink] at found
    rcases sinkAfter found inside with ⟨_,_,rfl⟩ | ⟨link',sink',old,had,rfl | ⟨key,_,rfl⟩⟩
    · split <;> rfl
    · exact ih conn link' _ old had
    · have own := ih conn link' sink' old had
      cases sink' <;> exact own
  · intro w e _ _ ih conn link sink found
    exact ih conn link sink (by cases e <;> exact found)

theorem takenKept (reach : (machine lib expired key).Reach ok s w) {e} (member : e ∈ w.log) {conn sink}
    (taken : e.did = ⟨.takeSink conn,some sink⟩ ∨ e.did = ⟨.readSink conn,some sink⟩) :
    ∃ link, e.before.links.lookup conn = some link ∧ link.sink = some sink := by
  have had : (e.before.links.lookup conn).bind Link.sink = some sink := by
    rcases taken with taken | taken
    · exact (Machine.responseIs reach member taken).symm
    · exact (Machine.responseIs reach member taken).symm
  exact Option.bind_eq_some_iff.mp had

/- and so does the sink that a task took or read from it. -/
theorem takenSinkOwn (closed : s.links = ∅) (reach : (machine lib expired key).Reach ok s w) {e} (member : e ∈ w.log)
    {conn sink} (taken : e.did = ⟨.takeSink conn,some sink⟩ ∨ e.did = ⟨.readSink conn,some sink⟩) : owner sink = some conn := by
  obtain ⟨v,reached,_,same,_⟩ := Machine.moment reach member
  obtain ⟨link,found,inside⟩ := takenKept reach member taken
  rw [← same] at found
  exact keptSinkOwn closed reached conn link sink found inside

/- A sink in one of the maps, or with a send, was taken from the connection whose key it has. -/
def Origin (lib : Library) (w : World) (key : SocketAddr) (sink : Sink) : Prop :=
  ∃ a ∈ w.log, ∃ conn, a.did = ⟨.takeSink conn,some sink⟩ ∧ key = lib.tryIntoV4 conn.addr

structure Origins (lib : Library) (w : World) : Prop where
  punch : ∀ key sink, w.shared.tcpPunch.lookup key = some sink → Origin lib w key sink
  peers : ∀ key sink, w.shared.tcpPeers.lookup key = some sink → sink = .closed ∨ Origin lib w key sink
  sends : ∀ i key sink, held (w.didsOf i) = some (key,sink) → Origin lib w key sink

theorem runOrigins (none : s.tcpPunch = ∅ ∧ s.tcpPeers = ∅) (reach : (machine lib expired key).Reach ok s w) :
    Origins lib w := by
  refine Machine.invariant (I := Origins lib) ?_ ?_ ?_ ?_ reach
  · refine ⟨fun key sink found => ?_,fun key sink found => ?_,fun i key sink holds => ?_⟩
    · rw [Machine.initial,none.1] at found
      cases found
    · rw [Machine.initial,none.2] at found
      cases found
    · cases holds
  · intro w c _ _ ih
    exact ⟨ih.punch,ih.peers,ih.sends⟩
  · intro w i c o next before _ found _ ih
    have due := dueNext before found
    have old : ∀ {place sink}, Origin lib w place sink → Origin lib ((machine lib expired key).performed w i c o next) place sink := by
      rintro place sink ⟨a,inside,rest⟩
      exact ⟨a,Machine.stillThere inside,rest⟩
    -- a stored sink was taken from the connection the task serves
    have stored : ∀ {key sink}, (∃ conn, Serves c (w.didsOf i) conn ∧ key = lib.tryIntoV4 conn.addr ∧
        ⟨.takeSink conn,some sink⟩ ∈ w.didsOf i) → Origin lib w key sink := by
      rintro key sink ⟨conn,_,same,done⟩
      obtain ⟨e,inside,_,did⟩ := didsOfMember.mp done
      exact ⟨e,inside,conn,did,same⟩
    refine ⟨fun key sink here => old ?_,fun key sink here => ?_,fun j key sink holds => old ?_⟩
    · simp only [Machine.performed,machine,execPunch] at here
      cases o with
      | punchInsert key' sink' =>
        simp only [punchAfter] at here
        split at here
        · rename_i same
          subst same
          cases Option.some.inj here
          exact stored due
        · exact ih.punch key sink here
      | punchRemove key' =>
        simp only [punchAfter] at here
        split at here
        · cases here
        · exact ih.punch key sink here
      | _ => exact ih.punch key sink here
    · simp only [Machine.performed,machine,execPeer] at here
      cases o with
      | peersInsert key' sink' =>
        simp only [peerAfter] at here
        split at here
        · rename_i same
          subst same
          cases Option.some.inj here
          exact .inr (old (stored due))
        · exact (ih.peers key sink here).imp_right old
      | peersTake key' =>
        simp only [peerAfter] at here
        split at here
        · obtain ⟨_,_,rfl⟩ := Option.map_eq_some_iff.mp here
          exact .inl rfl
        · exact (ih.peers key sink here).imp_right old
      | peersPutBack key' sink' =>
        simp only [peerAfter] at here
        split at here
        · rename_i both
          cases Option.some.inj here
          rw [both.1]
          exact .inr (old (ih.sends i key' sink due))
        · exact (ih.peers key sink here).imp_right old
      | peersRemove key' =>
        simp only [peerAfter] at here
        split at here
        · cases here
        · exact (ih.peers key sink here).imp_right old
      | _ => exact (ih.peers key sink here).imp_right old
    · rw [heldPerformed] at holds
      split at holds
      · rcases holdStep holds with ⟨_,there,live⟩ | ⟨had,_⟩
        · exact (ih.peers key sink there).resolve_left live
        · exact ih.sends j key sink had
      · exact ih.sends j key sink holds
  · intro w e _ _ ih
    have same : (Env.apply e w.shared).tcpPunch = w.shared.tcpPunch ∧ (Env.apply e w.shared).tcpPeers = w.shared.tcpPeers := by
      cases e <;> exact ⟨rfl,rfl⟩
    refine ⟨fun key sink found => ?_,fun key sink found => ?_,ih.sends⟩
    · rw [Machine.disturbed,machine,same.1] at found
      exact ih.punch key sink found
    · rw [Machine.disturbed,machine,same.2] at found
      exact ih.peers key sink found

/- What a lookup found had been taken from its connection before. -/
theorem lookedUp (none : s.tcpPunch = ∅ ∧ s.tcpPeers = ∅) (reach : (machine lib expired key).Reach ok s w) {e}
    (member : e ∈ w.log) {key sink} (found : e.did = ⟨.punchRemove key,some sink⟩ ∨ e.did = ⟨.peersTake key,some sink⟩)
    (live : sink ≠ .closed) :
    ∃ a ∈ w.log, a.pos < e.pos ∧ ∃ conn, a.did = ⟨.takeSink conn,some sink⟩ ∧ key = lib.tryIntoV4 conn.addr := by
  obtain ⟨v,reached,_,same,history,response,_,_⟩ := Machine.moment reach member
  have did := Machine.didIs rfl response
  have origins := runOrigins none reached
  suffices there : Origin lib v key sink by
    obtain ⟨a,inside,conn,taken⟩ := there
    obtain ⟨kept,less⟩ := (history a).mp inside
    exact ⟨a,kept,less,conn,taken⟩
  rcases found with found | found
  · rw [found] at did
    injection did with _ given
    refine origins.punch key sink ?_
    rw [same]
    exact given.symm
  · rw [found] at did
    injection did with _ given
    refine (origins.peers key sink ?_).resolve_left live
    rw [same]
    simp only [machine,exec] at given
    split at given
    · rename_i sink' here
      rw [here]
      exact given.symm
    · cases given

/- Task i is handling a frame of the connection, or has just accepted it. -/
def Serving (w : World) (i : Nat) (conn : Conn) : Prop :=
  ∃ t, w.tasks[i]? = some t ∧ behalf t.call = some conn ∧ serves (w.didsOf i) = true

structure Orderly (w : World) : Prop where
  present : ∀ i conn, Serving w i conn → (w.shared.links.lookup conn).isSome = true ∧ conn ∈ w.shared.serving
  alone : ∀ i j conn, Serving w i conn → Serving w j conn → i = j
  known : ∀ conn, (w.shared.links.lookup conn).isSome = true → conn ∈ w.shared.accepted

theorem servingNext {i c o} {next : Resp o → Prog Op Resp Unit} (found : w.tasks[i]? = some ⟨c,.op o next,true⟩) {conn}
    (serving : Serves c (w.didsOf i) conn) : Serving w i conn := ⟨_,found,serving.1,serving.2⟩

theorem servingPerformed {i c o} {next : Resp o → Prog Op Resp Unit} (found : w.tasks[i]? = some ⟨c,.op o next,true⟩)
    {j : Nat} {conn : Conn} : Serving ((machine lib expired key).performed w i c o next) j conn ↔
      if i = j then behalf c = some conn ∧ servesAfter ⟨o,(exec lib expired o w.shared).1⟩ (serves (w.didsOf i)) = true
      else Serving w j conn := by
  have bound := (List.getElem?_eq_some_iff.mp found).1
  by_cases same : i = j
  · subst same
    rw [if_pos rfl,Serving,Machine.didsPerformed,if_pos rfl,servesLast]
    simp only [Machine.performed,List.getElem?_set_self bound,Option.some.injEq,exists_eq_left']
    rfl
  · rw [if_neg same,Serving,Machine.didsPerformed,if_neg same,List.append_nil]
    simp only [Machine.performed,List.getElem?_set_ne same]
    rfl

theorem servingStep (ih : Orderly w) {i c o} {next : Resp o → Prog Op Resp Unit}
    (found : w.tasks[i]? = some ⟨c,.op o next,true⟩) (due : Due lib c (w.didsOf i) o) {j conn}
    (serving : Serving ((machine lib expired key).performed w i c o next) j conn) :
    (i = j ∧ ((∃ config, o = .connect conn config) ∨ ∃ frame, o = .receive conn frame)) ∨
    (Serving w j conn ∧ o ≠ .served conn ∧ o ≠ .disconnect conn) := by
  have other : ∀ {conn'}, Serves c (w.didsOf i) conn' → i ≠ j → Serving w j conn → conn' ≠ conn := by
    rintro _ mine apart theirs rfl
    exact apart (ih.alone _ _ _ (servingNext found mine) theirs)
  rw [servingPerformed found] at serving
  split at serving
  · rename_i same
    subst same
    obtain ⟨mine,still⟩ := serving
    cases o with
    | connect conn' config =>
      obtain ⟨secret,publicKey,rfl⟩ := due
      cases Option.some.inj mine
      exact .inl ⟨rfl,.inl ⟨config,rfl⟩⟩
    | receive conn' frame =>
      cases Option.some.inj (due.1.symm.trans mine)
      exact .inl ⟨rfl,.inr ⟨frame,rfl⟩⟩
    | served conn' => cases still
    | disconnect conn' => cases still
    | _ => exact .inr ⟨servingNext found ⟨mine,still⟩,by simp,by simp⟩
  · rename_i apart
    refine .inr ⟨serving,?_,?_⟩
    · rintro rfl
      exact other due apart serving rfl
    · rintro rfl
      exact other due apart serving rfl

theorem servingStarted (reach : (machine lib expired key).Reach ok s w) {c i conn} :
    Serving ((machine lib expired key).started w c) i conn ↔ Serving w i conn := by
  have dids : ((machine lib expired key).started w c).didsOf i = w.didsOf i := rfl
  simp only [Serving,dids]
  constructor
  · rintro ⟨t,found,mine,serving⟩
    have low : i < w.tasks.length := by
      rcases Nat.lt_trichotomy i w.tasks.length with low | rfl | high
      · exact low
      · rw [Machine.nothingDone reach] at serving
        cases serving
      · rw [Machine.started,List.getElem?_eq_none (by simp; omega)] at found
        cases found
    rw [Machine.started,List.getElem?_append_left low] at found
    exact ⟨t,found,mine,serving⟩
  · rintro ⟨t,found,rest⟩
    refine ⟨t,?_,rest⟩
    rw [Machine.started,List.getElem?_append_left (List.getElem?_eq_some_iff.mp found).1]
    exact found

/- While a task serves a connection, no other task changes its link. -/
theorem linkKept (orderly : Orderly w) {i c o} {next : Resp o → Prog Op Resp Unit}
    (found : w.tasks[i]? = some ⟨c,.op o next,true⟩) (due : Due lib c (w.didsOf i) o) (ready : ready o w.shared = true)
    {j conn} (serving : Serving w j conn) (apart : i ≠ j) (l : Option Link) : linkAfter conn l o = l := by
  obtain ⟨there,busy⟩ := orderly.present j conn serving
  have other : ∀ {conn'}, Serves c (w.didsOf i) conn' → conn ≠ conn' := by
    rintro _ mine rfl
    exact apart (orderly.alone _ _ _ (servingNext found mine) serving)
  cases o with
  | connect conn' config =>
    refine if_neg ?_
    rintro rfl
    exact of_decide_eq_true ready (orderly.known conn there)
  | receive conn' frame =>
    refine if_neg ?_
    rintro rfl
    exact of_decide_eq_true (Bool.and_eq_true_iff.mp ready).2 busy
  | offerKey conn' secret =>
    refine if_neg (other ?_)
    cases secret with
    | none =>
      obtain ⟨frame,draws,link,bytes,rfl,done,_⟩ := due
      exact ⟨rfl,by rw [done]; rfl⟩
    | some secret => exact due.1
  | secure conn' key =>
    obtain ⟨frame,draws,link,rfl,done,_⟩ := due
    exact if_neg (other ⟨rfl,by rw [done]; rfl⟩)
  | takeSink conn' => exact if_neg (other due)
  | disconnect conn' => exact if_neg (other due)
  | _ => rfl

/- One task at a time serves a connection, and the connection is open all the while. -/
theorem runOrderly (closed : s.links = ∅) (reach : (machine lib expired key).Reach ok s w) : Orderly w := by
  refine Machine.invariant (I := Orderly) ?_ ?_ ?_ ?_ reach
  · have none : ∀ conn, (s.links.lookup conn).isSome = false := fun conn => by rw [closed]; rfl
    refine ⟨?_,?_,fun conn here => ?_⟩
    · rintro i conn ⟨t,found,_⟩
      simp [Machine.initial] at found
    · rintro i j conn ⟨t,found,_⟩
      simp [Machine.initial] at found
    · exact absurd here (by simp [Machine.initial,none])
  · intro w c before _ ih
    have old : ∀ i conn, Serving ((machine lib expired key).started w c) i conn ↔ Serving w i conn :=
      fun i conn => servingStarted before
    exact ⟨fun i conn serving => ih.present i conn ((old i conn).mp serving),
      fun i j conn left right => ih.alone i j conn ((old i conn).mp left) ((old j conn).mp right),ih.known⟩
  · intro w i c o next before _ found ready ih
    have due := dueNext before found
    refine ⟨fun j conn serving => ?_,fun j k conn left right => ?_,fun conn here => ?_⟩
    · simp only [Machine.performed,machine,execLink,openAfter,execServing]
      rcases servingStep ih found due serving with ⟨_,⟨config,rfl⟩ | ⟨frame,rfl⟩⟩ | ⟨old,unserved,connected⟩
      · exact ⟨.inr ⟨config,rfl⟩,.inr (.inl ⟨config,rfl⟩)⟩
      · exact ⟨.inl ⟨(Bool.and_eq_true_iff.mp ready).1,by simp⟩,.inl ⟨frame,rfl⟩⟩
      · obtain ⟨there,busy⟩ := ih.present j conn old
        exact ⟨.inl ⟨there,connected⟩,.inr (.inr ⟨busy,unserved,connected⟩)⟩
    · -- whom a connection is handed to finds nobody serving it
      have nobody : ((∃ config, o = .connect conn config) ∨ ∃ frame, o = .receive conn frame) → ∀ j, ¬ Serving w j conn := by
        rintro (⟨config,rfl⟩ | ⟨frame,rfl⟩) j theirs
        · exact of_decide_eq_true ready (ih.known conn (ih.present j conn theirs).1)
        · exact of_decide_eq_true (Bool.and_eq_true_iff.mp ready).2 (ih.present j conn theirs).2
      rcases servingStep ih found due left with ⟨rfl,new⟩ | ⟨old,_⟩
      · rcases servingStep ih found due right with ⟨rfl,_⟩ | ⟨old,_⟩
        · rfl
        · exact absurd old (nobody new k)
      · rcases servingStep ih found due right with ⟨_,new⟩ | ⟨old',_⟩
        · exact absurd old (nobody new j)
        · exact ih.alone j k conn old old'
    · simp only [Machine.performed,machine,execLink,openAfter,execAccepted] at here ⊢
      exact here.imp (fun old => ih.known conn old.1) fun new => new
  · intro w e _ _ ih
    have same : (Env.apply e w.shared).links = w.shared.links ∧ (Env.apply e w.shared).serving = w.shared.serving ∧
        (Env.apply e w.shared).accepted = w.shared.accepted := by cases e <;> exact ⟨rfl,rfl,rfl⟩
    refine ⟨fun i conn serving => ?_,fun i j conn left right => ih.alone i j conn left right,fun conn here => ?_⟩
    · simp only [Machine.disturbed,machine,same.1,same.2.1]
      exact ih.present i conn serving
    · simp only [Machine.disturbed,machine,same.1,same.2.2] at here ⊢
      exact ih.known conn here

end Runs

/- The connection that a task is about to accept. -/
def connecting (w : World) (i : Nat) : Option Conn :=
  match w.next i with
  | some (.connect conn _) => some conn
  | _ => none

/- No connection is accepted from the address of one that is still open. -/
def Distinct (lib : Library) (w : World) : Act Call Env → Prop
  | .advance i => ∀ conn ∈ connecting w i, ∀ other ∈ w.shared.links.keys, lib.tryIntoV4 other.addr ≠ lib.tryIntoV4 conn.addr
  | _ => True

instance (lib : Library) (w : World) : (a : Act Call Env) → Decidable (Distinct lib w a)
  | .advance i => inferInstanceAs (Decidable (∀ conn ∈ connecting w i, ∀ other ∈ w.shared.links.keys,
      lib.tryIntoV4 other.addr ≠ lib.tryIntoV4 conn.addr))
  | .start _ | .env _ => .isTrue trivial

end OpenuuServer.RendezvousService
