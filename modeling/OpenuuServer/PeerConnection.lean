import OpenuuServer.RendezvousRuns

/-! One connection of a peer from its accept to its end. The write half is with the task of the
connection, in `tcp_peers`, or given away: parked in `tcp_punch` for the answer to a request, or
spent on that answer. Registration adopts it from the task only. -/
namespace OpenuuServer.PeerConnection
open AtomicProgram RendezvousMessages RendezvousServer RendezvousPrograms RendezvousService RendezvousRuns
open PeerRegistry (Bytes SocketAddr LockPeer Registry Outage)

inductive Stage where
  | held (sink : Sink)
  | registered (sink : Sink)
  | given
  | closed

def Writes (conn : Conn) : Sink → Prop
  | .tcpStream conn' _ | .ws conn' => conn' = conn
  | .closed => False

/- Where the write half is, read off the slot of the connection's address and what its task keeps. -/
inductive At (conn : Conn) : Option Sink → Option Link → Stage → Prop
  | held {link sink} (own : link.sink = some sink) (writes : Writes conn sink) : At conn none (some link) (.held sink)
  | registered {link sink} (gone : link.sink = none) (writes : Writes conn sink) :
    At conn (some sink) (some link) (.registered sink)
  | given {link} (gone : link.sink = none) : At conn none (some link) .given
  | closed : At conn none none .closed

/- The ways of the write half: it leaves its task once, and a registered one stays registered. -/
inductive Later (conn : Conn) : Stage → Stage → Prop
  | stays (stage : Stage) : Later conn stage stage
  | secured {sink sink'} (writes : Writes conn sink → Writes conn sink') : Later conn (.held sink) (.held sink')
  | adopted {sink sink'} (writes : Writes conn sink → Writes conn sink') : Later conn (.held sink) (.registered sink')
  | gives {sink} : Later conn (.held sink) .given
  | closes (stage : Stage) : Later conn stage .closed

theorem laterTrans {conn : Conn} {a b c : Stage} (first : Later conn a b) (second : Later conn b c) : Later conn a c := by
  cases second with
  | stays => exact first
  | closes => exact .closes a
  | secured writes =>
    cases first with
    | stays => exact .secured writes
    | secured writes' => exact .secured (writes ∘ writes')
  | adopted writes =>
    cases first with
    | stays => exact .adopted writes
    | secured writes' => exact .adopted (writes ∘ writes')
  | gives =>
    cases first with
    | stays => exact .gives
    | secured writes' => exact .gives

/- A registered write half stays where it is as long as the connection is open. -/
theorem laterRegistered {conn : Conn} {sink : Sink} {stage : Stage} (later : Later conn (.registered sink) stage) :
    stage = .registered sink ∨ stage = .closed := by
  cases later with
  | stays => exact .inl rfl
  | closes => exact .inr rfl

def Located (lib : Library) (conn : Conn) (s : Server) (stage : Stage) : Prop :=
  At conn (s.tcpPeers.lookup (lib.tryIntoV4 conn.addr)) (s.links.lookup conn) stage

section Runs
variable {lib : Library} {expired : Nat → Nat} {key : String} {conn : Conn} {config : Config} {draws : Draws} {α β : Type}
variable {s s' : Server} {stage : Stage}

/- A program that, alone, moves the write half on. -/
def Moves (lib : Library) (expired : Nat → Nat) (conn : Conn) (p : Prog Op Resp α) : Prop :=
  ∀ s stage, Located lib conn s stage →
    ∃ stage', Later conn stage stage' ∧ Located lib conn (p.run (exec lib expired) s).2 stage'

theorem movesRet (value : α) : Moves lib expired conn (.ret value : Prog Op Resp α) :=
  fun _ stage located => ⟨stage,.stays stage,located⟩

theorem movesBind {p : Prog Op Resp α} {k : α → Prog Op Resp β} (first : Moves lib expired conn p)
    (second : ∀ value, Moves lib expired conn (k value)) : Moves lib expired conn (p >>= k) := by
  intro s stage located
  obtain ⟨middle,later,there⟩ := first s stage located
  obtain ⟨last,later',there'⟩ := second _ _ middle there
  rw [runBind]
  exact ⟨last,laterTrans later later',there'⟩

/- The same slot and the same link: the same place. -/
theorem locatedSame (located : Located lib conn s stage)
    (peers : s'.tcpPeers.lookup (lib.tryIntoV4 conn.addr) = s.tcpPeers.lookup (lib.tryIntoV4 conn.addr))
    (links : s'.links.lookup conn = s.links.lookup conn) : Located lib conn s' stage := by
  rw [Located,peers,links]
  exact located

/- The operations that touch neither `tcp_peers` nor what a task keeps. -/
def still : Op → Bool
  | .connect _ _ | .receive _ _ | .disconnect _ | .offerKey _ _ | .secure _ _ | .takeSink _ | .peersInsert _ _ | .peersRemove _
  | .peersTake _ | .peersPutBack _ _ => false
  | _ => true

theorem movesOp {o : Op} {next : Resp o → Prog Op Resp α} (free : still o = true)
    (rest : ∀ r, Moves lib expired conn (next r)) : Moves lib expired conn (.op o next) := by
  intro s stage located
  have peers : (exec lib expired o s).2.tcpPeers.lookup (lib.tryIntoV4 conn.addr) =
      s.tcpPeers.lookup (lib.tryIntoV4 conn.addr) := by
    rw [execPeer]
    cases o <;> first | contradiction | rfl
  have links : (exec lib expired o s).2.links.lookup conn = s.links.lookup conn := by
    rw [execLink]
    cases o <;> first | contradiction | rfl
  exact rest _ _ _ (locatedSame located peers links)

theorem movesAct (o : Op) (free : still o = true) : Moves lib expired conn (act o) := movesOp free fun _ => movesRet _

theorem movesIte {q : Prop} [Decidable q] {x y : Prog Op Resp α} (left : Moves lib expired conn x)
    (right : Moves lib expired conn y) : Moves lib expired conn (if q then x else y) := by
  split
  · exact left
  · exact right

theorem movesEvery {p : Prog Op Resp α} (all : p.Every fun o => still o = true) : Moves lib expired conn p := by
  induction p with
  | ret value => exact movesRet value
  | op o next ih => exact movesOp all.1 fun r => ih r (all.2 r)

theorem movesSink (sink : Option Sink) (msg : Message) : Moves lib expired conn (sendToSink sink msg) := by
  unfold sendToSink
  split
  · exact movesRet ()
  · exact movesRet ()
  · exact movesAct _ rfl

theorem movesPeer (addr : SocketAddr) (msg : Message) : Moves lib expired conn (sendToTcpPeer lib addr msg) := by
  intro s stage located
  obtain ⟨alike,_⟩ := sendToTcpPeerRun lib expired addr msg s
  exact ⟨stage,.stays stage,locatedSame located (alike.peers _) (by rw [alike.rest])⟩

theorem movesReply (msg : Message) : Moves lib expired conn (replyOnConnection lib conn msg) := by
  refine movesOp rfl fun sink => ?_
  exact movesIte (movesSink _ _) (movesBind (movesPeer _ _) fun _ => movesRet _)

theorem movesAnswer (msg : Message) (addr : SocketAddr) : Moves lib expired conn (sendToTcp lib msg addr) := by
  refine movesOp rfl fun tcp => ?_
  exact movesIte (movesBind (movesPeer _ _) fun _ => movesRet _) (movesSink _ _)

theorem movesDeliver (msg : Message) (addr : SocketAddr) : Moves lib expired conn (deliver lib msg addr) :=
  movesBind (movesPeer _ _) fun _ => movesIte (movesAct _ rfl) (movesRet _)

variable (expired) in
/- Taking the sink takes the write half from the task, if it is there. -/
theorem taken (located : Located lib conn s stage) :
    (exec lib expired (.takeSink conn) s).1 = none ∧ Located lib conn (exec lib expired (.takeSink conn) s).2 stage ∨
      ∃ sink, stage = .held sink ∧ (exec lib expired (.takeSink conn) s).1 = some sink ∧ Writes conn sink ∧
        Located lib conn (exec lib expired (.takeSink conn) s).2 .given := by
  have links : (exec lib expired (.takeSink conn) s).2.links.lookup conn =
      (s.links.lookup conn).map fun link => { link with sink := none } := by
    rw [execLink]
    exact if_pos rfl
  have peers : (exec lib expired (.takeSink conn) s).2.tcpPeers.lookup (lib.tryIntoV4 conn.addr) =
      s.tcpPeers.lookup (lib.tryIntoV4 conn.addr) := execPeer _ _ _
  have given : (exec lib expired (.takeSink conn) s).1 = (s.links.lookup conn).bind Link.sink := rfl
  unfold Located at located ⊢
  rw [links,given,peers]
  generalize s.links.lookup conn = link at located ⊢
  generalize s.tcpPeers.lookup (lib.tryIntoV4 conn.addr) = slot at located ⊢
  cases located with
  | held own writes => exact .inr ⟨_,rfl,own,writes,.given rfl⟩
  | registered gone writes => exact .inl ⟨gone,.registered rfl writes⟩
  | given gone => exact .inl ⟨gone,.given rfl⟩
  | closed => exact .inl ⟨rfl,.closed⟩

variable (expired) in
theorem inserted {sink : Sink} (located : Located lib conn s .given) (writes : Writes conn sink) :
    Located lib conn (exec lib expired (.peersInsert (lib.tryIntoV4 conn.addr) sink) s).2 (.registered sink) := by
  unfold Located at located ⊢
  rw [execLink,execPeer,peerAfter,if_pos rfl]
  generalize s.links.lookup conn = link at located
  generalize s.tcpPeers.lookup (lib.tryIntoV4 conn.addr) = slot at located
  cases located with
  | given gone => exact .registered gone writes

theorem movesAdopt : Moves lib expired conn (adoptSink lib conn) := by
  intro s stage located
  unfold adoptSink act
  simp only [performIs,bindOp,bindRet,Prog.run]
  rcases taken expired located with ⟨none,there⟩ | ⟨sink,rfl,some,writes,there⟩
  · rw [none]
    exact ⟨stage,.stays stage,there⟩
  · rw [some]
    exact ⟨.registered sink,.adopted id,inserted expired there writes⟩

theorem movesPark {next : Option Sink → Prog Op Resp α} {rest : Prog Op Resp α} (absent : next none = rest)
    (present : ∀ s, next (some s) = .op (.punchInsert (lib.tryIntoV4 conn.addr) s) fun _ => rest)
    (moves : Moves lib expired conn rest) : Moves lib expired conn (.op (.takeSink conn) next) := by
  intro s stage located
  rw [Prog.run]
  rcases taken expired located with ⟨none,there⟩ | ⟨sink,rfl,some,_,there⟩
  · rw [none,absent]
    exact moves _ _ there
  · rw [some,present]
    obtain ⟨last,later,there'⟩ := movesOp (o := .punchInsert (lib.tryIntoV4 conn.addr) sink) rfl (fun _ => moves) _ _ there
    exact ⟨last,laterTrans .gives later,there'⟩

/- The end of a connection, from wherever its write half is. -/
theorem movesClosing : Moves lib expired conn (closing lib conn) := by
  have ends : ∀ s, Located lib conn ((do act (.peersRemove (lib.tryIntoV4 conn.addr)); act (.disconnect conn) :
      Prog Op Resp Unit).run (exec lib expired) s).2 .closed := by
    intro s
    unfold Located act
    simp only [performIs,bindOp,bindRet,Prog.run]
    have slot :
        (exec lib expired (.peersRemove (lib.tryIntoV4 conn.addr)) s).2.tcpPeers.lookup (lib.tryIntoV4 conn.addr) = none := by
      rw [execPeer]
      exact if_pos rfl
    rw [execLink,execPeer]
    simp only [linkAfter,peerAfter,slot,if_true]
    exact .closed
  intro s stage _
  refine ⟨.closed,.closes stage,?_⟩
  unfold closing act
  simp only [performIs,bindOp,bindRet,Prog.run]
  split
  · exact ends _
  · exact ends _

/- The task changes what it keeps, but not the sink, or it secures that. -/
theorem movesRefit {o : Op} {next : Resp o → Prog Op Resp α} (f : Link → Link) (secure : Sink → Sink)
    (links : ∀ s, (exec lib expired o s).2.links.lookup conn = (s.links.lookup conn).map f)
    (peers : ∀ s, (exec lib expired o s).2.tcpPeers.lookup (lib.tryIntoV4 conn.addr) = s.tcpPeers.lookup (lib.tryIntoV4 conn.addr))
    (sinks : ∀ link, (f link).sink = link.sink.map secure) (writes : ∀ sink, Writes conn sink → Writes conn (secure sink))
    (rest : ∀ r, Moves lib expired conn (next r)) : Moves lib expired conn (.op o next) := by
  intro s stage located
  have moved : ∃ stage', Later conn stage stage' ∧ Located lib conn (exec lib expired o s).2 stage' := by
    unfold Located at located ⊢
    rw [links,peers]
    generalize s.links.lookup conn = link at located
    generalize s.tcpPeers.lookup (lib.tryIntoV4 conn.addr) = slot at located
    cases located with
    | @held link sink own mine => exact ⟨_,.secured (writes sink),.held (by rw [sinks,own]; rfl) (writes sink mine)⟩
    | @registered link sink gone mine => exact ⟨_,.stays _,.registered (by rw [sinks,gone]; rfl) mine⟩
    | @given link gone => exact ⟨_,.stays _,.given (by rw [sinks,gone]; rfl)⟩
    | closed => exact ⟨_,.stays _,.closed⟩
  obtain ⟨middle,later,there⟩ := moved
  obtain ⟨last,later',there'⟩ := rest _ _ _ there
  exact ⟨last,laterTrans later later',there'⟩

theorem movesParts : Parts lib conn fun _ p => Moves lib expired conn p where
  ret := movesRet
  bind := movesBind
  op := fun {α o next} free rest => movesOp (by cases o <;> first | contradiction | rfl) rest
  peer := movesPeer
  reply := movesReply
  answer := movesAnswer
  adopt := movesAdopt
  park := movesPark

theorem encryptedWrites (k : Bytes) (sink : Sink) (writes : Writes conn sink) : Writes conn (encrypted k sink) := by
  cases sink <;> exact writes

theorem movesServe (frame : Bytes) (link : Link) : Moves lib expired conn (serve lib key conn frame draws link) := by
  have handled : ∀ bytes, Moves lib expired conn (handleTcp lib link.config key conn bytes draws >>= fun keep =>
      if keep then act (.served conn) else closing lib conn) := fun bytes =>
    movesBind (movesParts.handleTcp bytes) fun keep => movesIte (movesAct _ rfl) movesClosing
  unfold serve
  split
  · rename_i symmetric _
    refine movesRefit (o := .secure conn symmetric)
      (fun link => { link with sink := link.sink.map (encrypted symmetric),offer := none,dec := some (symmetric,[]) })
      (encrypted symmetric) (fun s => ?_) (fun s => ?_) (fun _ => rfl) (encryptedWrites symmetric) fun _ => movesAct _ rfl
    · rw [execLink,linkAfter,if_pos rfl]
    · rw [execPeer]
      rfl
  · exact movesClosing
  · split
    · refine movesRefit (o := .offerKey conn none) (fun link => { link with offer := none }) id
        (fun s => ?_) (fun s => ?_) (fun link => by simp) (fun _ => id) fun _ => handled _
      · rw [execLink,linkAfter,if_pos rfl]
      · rw [execPeer]
        rfl
    · exact handled _

theorem movesTurning {body : Config → Prog Op Resp α} (all : ∀ config, Moves lib expired conn (body config)) :
    Moves lib expired conn (turning body) :=
  movesBind (movesAct .loopTurn rfl) fun config => movesBind (all config) fun _ => movesBind (movesAct .loopDone rfl)
    fun _ => movesRet _

/- All that is not on a connection. -/
def Apart : Call → Prop
  | .accept _ _ _ | .tcp _ _ _ | .close _ => False
  | _ => True

theorem movesApart {c : Call} (apart : Apart c) : Moves lib expired conn (program lib key c) := by
  unfold program
  cases c with
  | accept | tcp | close => exact absurd apart id
  | account c => exact movesBind (movesEvery (everyAccount (fun _ => rfl) _)) fun _ => movesRet _
  | udp addr bytes draws =>
    exact movesTurning fun config => movesEvery (everyUdp (fun _ => rfl) (fun _ => rfl) (fun _ => rfl) bytes)
  | turn =>
    refine movesTurning fun config => movesOp rfl fun data => ?_
    cases (data : Option Data) with
    | none => exact movesRet _
    | some data =>
      cases data with
      | msg m addr => exact movesDeliver _ _
      | relayServers0 rs => exact movesAct _ rfl
      | relayServers rs => exact movesAct _ rfl
  | nat addr bytes =>
    refine movesBind (movesTurning movesRet) fun _ => movesIte ?_ (movesRet _)
    split
    · exact movesAct _ rfl
    · exact movesBind (movesEvery (everyOnlineList (fun _ => rfl) (fun _ => rfl) _)) fun _ => movesAct _ rfl
    · exact movesRet _
  | console addr cmd =>
    refine movesBind (movesTurning movesRet) fun config => movesIte ?_ (movesRet _)
    cases cmd with
    | relayServers rs => exact movesAct _ rfl
    | alwaysUseRelay arg => exact movesOp rfl fun _ => movesAct _ rfl
    | testGeo => exact movesBind (movesEvery (everyGetRelayServer rfl)) fun _ => movesRet _
    | display => exact movesRet _
    | _ => exact movesAct _ rfl
  | relayCheck reachable =>
    refine movesBind (movesTurning movesRet) fun config => movesIte ?_ (movesRet _)
    exact movesIte (movesAct _ rfl) (movesRet _)
  | peerTransport => exact movesTurning fun _ => movesEvery (everyPeerTransport rfl (fun _ => rfl) rfl fun _ _ _ => rfl)
  | testHbbs addr => exact movesAct _ rfl

end Runs

/- What happens around one connection when no other interferes: its frames, its end, what hbbs
pushes or answers to any address, and all that is not on a connection. -/
inductive Happening where
  | frame (frame : Bytes) (draws : Draws)
  | close
  | push (msg : Message) (addr : SocketAddr)
  | answer (msg : Message) (addr : SocketAddr)
  | other (c : Call) (apart : Apart c)
  | env (e : Env)

section Sequences
variable (lib : Library) (expired : Nat → Nat) (key : String) (conn : Conn)

def Happening.after (s : Server) : Happening → Server
  | .frame f draws => ((program lib key (.tcp conn f draws)).run (exec lib expired) s).2
  | .close => ((program lib key (.close conn)).run (exec lib expired) s).2
  | .push msg addr => ((deliver lib msg addr).run (exec lib expired) s).2
  | .answer msg addr => ((sendToTcp lib msg addr).run (exec lib expired) s).2
  | .other c _ => ((program lib key c).run (exec lib expired) s).2
  | .env e => e.apply s

def afterAll (s : Server) (hs : List Happening) : Server := hs.foldl (fun s h => h.after lib expired key conn s) s

/- The states that follow the accept of the connection, where nothing had been kept under its address. -/
inductive Sequence : Server → Prop
  | accepted {s} (fresh : s.tcpPeers.lookup (lib.tryIntoV4 conn.addr) = none) (secret publicKey : Bytes) :
    Sequence ((program lib key (.accept conn secret publicKey)).run (exec lib expired) s).2
  | next {s} (before : Sequence s) (h : Happening) : Sequence (h.after lib expired key conn s)

variable {lib expired key conn} {s : Server} {stage : Stage}

theorem movesTcp (f : Bytes) (draws : Draws) : Moves lib expired conn (program lib key (.tcp conn f draws)) := by
  refine movesRefit (o := .receive conn (some f)) (fun link => { link with dec := link.dec.map fun d => (d.1,d.2 ++ [f]) })
    id (fun s => ?_) (fun s => ?_) (fun link => by simp) (fun _ => id) fun link => ?_
  · rw [execLink,linkAfter,if_pos rfl]
    rfl
  · rw [execPeer]
    rfl
  · cases (link : Option Link) with
    | none => exact movesRet _
    | some link => exact movesServe _ _

theorem movesClose : Moves lib expired conn (program lib key (.close conn)) := by
  refine movesRefit (o := .receive conn none) (fun link => { link with dec := link.dec.map fun d => (d.1,d.2 ++ []) })
    id (fun s => ?_) (fun s => ?_) (fun link => by simp) (fun _ => id) fun link => movesClosing
  · rw [execLink,linkAfter,if_pos rfl]
    rfl
  · rw [execPeer]
    rfl

variable (expired key) in
/- Whatever happens, the write half moves on. -/
theorem happeningLater (h : Happening) (located : Located lib conn s stage) :
    ∃ stage', Later conn stage stage' ∧ Located lib conn (h.after lib expired key conn s) stage' := by
  cases h with
  | frame f draws => exact movesTcp f draws s stage located
  | close => exact movesClose s stage located
  | push msg addr => exact movesDeliver msg addr s stage located
  | answer msg addr => exact movesAnswer msg addr s stage located
  | other c apart => exact movesApart apart s stage located
  | env e => cases e <;> exact ⟨stage,.stays stage,located⟩

variable (expired key) in
theorem allLater (hs : List Happening) (located : Located lib conn s stage) :
    ∃ stage', Later conn stage stage' ∧ Located lib conn (afterAll lib expired key conn s hs) stage' := by
  induction hs generalizing s stage with
  | nil => exact ⟨stage,.stays stage,located⟩
  | cons h hs ih =>
    obtain ⟨middle,later,there⟩ := happeningLater expired key h located
    obtain ⟨last,later',there'⟩ := ih there
    exact ⟨last,laterTrans later later',there'⟩

/- A new connection has its write half with its task. -/
theorem connectLocated {config : Config} {next : Unit → Prog Op Resp Unit} (rest : Moves lib expired conn (next ()))
    (fresh : s.tcpPeers.lookup (lib.tryIntoV4 conn.addr) = none) :
    ∃ stage, Located lib conn ((Prog.op (.connect conn config) next).run (exec lib expired) s).2 stage := by
  have held : ∃ sink, Located lib conn (exec lib expired (.connect conn config) s).2 (.held sink) := by
    unfold Located
    rw [execLink,execPeer,linkAfter,if_pos rfl]
    simp only [peerAfter,fresh]
    refine ⟨_,.held rfl ?_⟩
    cases conn.ws <;> exact rfl
  obtain ⟨sink,located⟩ := held
  obtain ⟨stage,_,there⟩ := rest _ _ located
  exact ⟨stage,there⟩

theorem acceptedLocated (fresh : s.tcpPeers.lookup (lib.tryIntoV4 conn.addr) = none) (secret publicKey : Bytes) :
    ∃ stage, Located lib conn ((program lib key (.accept conn secret publicKey)).run (exec lib expired) s).2 stage := by
  unfold program
  dsimp only
  rw [runBind]
  refine connectLocated ?_ fresh
  refine movesIte ?_ (movesAct _ rfl)
  cases ((turning pure : Prog Op Resp Config).run (exec lib expired) s).1.inner.sk with
  | none => exact movesAct _ rfl
  | some sk =>
    refine movesOp rfl fun _ => ?_
    refine movesRefit (o := .offerKey conn (some secret)) (fun link => { link with offer := some secret }) id
      (fun s => ?_) (fun s => ?_) (fun link => by simp) (fun _ => id) fun _ => movesAct _ rfl
    · rw [execLink,linkAfter,if_pos rfl]
    · rw [execPeer]
      rfl

theorem sequenceLocated (run : Sequence lib expired key conn s) : ∃ stage, Located lib conn s stage := by
  induction run with
  | accepted fresh secret publicKey => exact acceptedLocated fresh secret publicKey
  | next before h ih =>
    obtain ⟨stage,located⟩ := ih
    obtain ⟨stage',_,there⟩ := happeningLater expired key h located
    exact ⟨stage',there⟩

end Sequences

/- The registrations that hbbs answers, and with what. -/
def Registers : Message → Prop
  | .registerPeer rp => rp.id ≠ ""
  | .registerPk rk => rk.uuid ≠ [] ∧ rk.pk ≠ []
  | _ => False

def Answers : Message → Message → Prop
  | .registerPeer _,.registerPeerResponse _ | .registerPk _,.registerPkResponse _ => True
  | _,_ => False

/- The registration in the frame is answered on the connection, and as long as that stays open, what
hbbs pushes to its address is written to it. -/
structure Served (lib : Library) (expired : Nat → Nat) (key : String) (conn : Conn) (s : Server) (f : Bytes) (draws : Draws)
    (m : Message) : Prop where
  answered : ∃ sink r, Writes conn sink ∧ Answers m r ∧ (.sink sink,r) ∈ sends lib expired (program lib key (.tcp conn f draws)) s
  pushed : ∀ hs addr msg, lib.tryIntoV4 addr = lib.tryIntoV4 conn.addr →
    ((afterAll lib expired key conn s (.frame f draws :: hs)).links.lookup conn).isSome →
    ∃ sink, Writes conn sink ∧
      sends lib expired (deliver lib msg addr) (afterAll lib expired key conn s (.frame f draws :: hs)) = [(.sink sink,msg)]

section Registrations
variable {lib : Library} {expired : Nat → Nat} {key : String} {conn : Conn} {config : Config} {draws : Draws} {s : Server}
variable {bytes : Bytes} {m : Message} {α : Type}

/- What the handling of a registration leaves and sends: it adopts the write half from the task, and
answers if that or an earlier registration got hold of it. -/
structure Handled (lib : Library) (conn : Conn) (m : Message) (s s' : Server) (sent : List (Route × Message)) : Prop where
  slot : s'.tcpPeers.lookup (lib.tryIntoV4 conn.addr) = slotAfter lib s conn
  answer : ∀ sink, slotAfter lib s conn = some sink → Writes conn sink → ∃ r, Answers m r ∧ (.sink sink,r) ∈ sent
  silent : slotAfter lib s conn = none → sent = []

theorem writesLive {sink : Sink} (writes : Writes conn sink) : sink ≠ .closed := by
  rintro rfl
  exact writes

variable (lib expired conn) in
theorem adoptedRun {β : Type} (p : Prog PeerRegistry.Op PeerRegistry.Resp β) (msg : β → Message)
    (answers : ∀ r, Answers m (msg r))
    (s : Server) : Handled lib conn m s ((adopting lib conn p msg).run (exec lib expired) s).2
      (sends lib expired (adopting lib conn p msg) s) := by
  obtain ⟨_,_,slots,sent⟩ := adoptingRun lib expired conn p msg s
  refine ⟨by rw [slots,if_pos rfl],fun sink here writes => ?_,fun none => ?_⟩
  · rw [sent,here,slotLive (writesLive writes)]
    exact ⟨_,answers _,.head _⟩
  · rw [sent,none]
    rfl

/- A further send to the same address changes nothing about that. -/
theorem handledSends {s' : Server} {sent : List (Route × Message)} (handled : Handled lib conn m s s' sent) (msg : Message) :
    Handled lib conn m s ((sendToTcpPeer lib conn.addr msg).run (exec lib expired) s').2
      (sent ++ sends lib expired (sendToTcpPeer lib conn.addr msg) s') := by
  obtain ⟨alike,_,more⟩ := sendToTcpPeerRun lib expired conn.addr msg s'
  refine ⟨(alike.peers _).trans handled.slot,fun sink here writes => ?_,fun none => ?_⟩
  · obtain ⟨r,answers,member⟩ := handled.answer sink here writes
    exact ⟨r,answers,List.mem_append_left _ member⟩
  · rw [handled.silent none,more,handled.slot,none]
    rfl

variable (lib expired key conn config draws) in
theorem registrationHandled (parsed : lib.parse bytes = some m) (registers : Registers m) (s : Server) :
    ((handleTcp lib config key conn bytes draws).run (exec lib expired) s).1 = true ∧
    Handled lib conn m s ((handleTcp lib config key conn bytes draws).run (exec lib expired) s).2
      (sends lib expired (handleTcp lib config key conn bytes draws) s) := by
  unfold handleTcp
  rw [parsed]
  cases m with
  | registerPk rk =>
    dsimp only
    rw [registerPkAdopting registers.1 registers.2,runBind,sendsBind,
      show sends lib expired (pure true : Prog Op Resp Bool) _ = [] from rfl,
      List.append_nil]
    exact ⟨rfl,adoptedRun lib expired conn (m := .registerPk rk) _ .registerPkResponse (fun _ => trivial) s⟩
  | registerPeer rp =>
    have adopted := adoptedRun lib expired conn (m := .registerPeer rp) (PeerRegistry.registerPeerResponse rp.id conn.addr)
      .registerPeerResponse (fun _ => trivial) s
    dsimp only
    rw [registerPeerAdopting registers,runBind,sendsBind,show sends lib expired (pure true : Prog Op Resp Bool) _ = [] from rfl,
      List.append_nil,runBind,sendsBind]
    refine ⟨rfl,?_⟩
    split
    · rw [runBind,sendsBind,show sends lib expired (pure () : Prog Op Resp Unit) _ = [] from rfl,List.append_nil]
      exact handledSends adopted _
    · rw [show sends lib expired (pure () : Prog Op Resp Unit) _ = [] from rfl,List.append_nil]
      exact adopted
  | _ => exact absurd registers id

/- What the write half's place is read off is the same. -/
structure Alongside (lib : Library) (conn : Conn) (s s' : Server) : Prop where
  slot : s'.tcpPeers.lookup (lib.tryIntoV4 conn.addr) = s.tcpPeers.lookup (lib.tryIntoV4 conn.addr)
  own : ownSink s' conn = ownSink s conn

theorem handledFrom {s' v : Server} {sent : List (Route × Message)} (same : Alongside lib conn s s')
    (handled : Handled lib conn m s' v sent) : Handled lib conn m s v sent := by
  have slots : slotAfter lib s' conn = slotAfter lib s conn := by rw [slotAfter,slotAfter,same.slot,same.own]
  obtain ⟨slot,answer,silent⟩ := handled
  rw [slots] at slot answer silent
  exact ⟨slot,answer,silent⟩

theorem sendsNext {o : Op} {next : Resp o → Prog Op Resp α} (quiet : ∀ r, sent ⟨o,r⟩ = none) (s : Server) :
    sends lib expired (.op o next) s = sends lib expired (next (exec lib expired o s).1) (exec lib expired o s).2 := by
  rw [sends,Prog.trace,List.filterMap_cons_none (quiet _)]
  rfl

/- An operation of the read loop before the handling. -/
theorem handledNext {o : Op} {next : Resp o → Prog Op Resp Unit} (quiet : ∀ r, sent ⟨o,r⟩ = none)
    (same : Alongside lib conn s (exec lib expired o s).2)
    (rest : Handled lib conn m (exec lib expired o s).2 ((next (exec lib expired o s).1).run (exec lib expired) (exec lib expired o s).2).2
      (sends lib expired (next (exec lib expired o s).1) (exec lib expired o s).2)) :
    Handled lib conn m s ((Prog.op o next).run (exec lib expired) s).2 (sends lib expired (.op o next) s) := by
  rw [sendsNext quiet,Prog.run]
  exact handledFrom same rest

/- The task changes what it keeps, but not the sink. -/
theorem alongsideRefit {o : Op} (f : Link → Link) (sinks : ∀ link, (f link).sink = link.sink)
    (links : (exec lib expired o s).2.links.lookup conn = (s.links.lookup conn).map f)
    (peers : (exec lib expired o s).2.tcpPeers.lookup (lib.tryIntoV4 conn.addr) = s.tcpPeers.lookup (lib.tryIntoV4 conn.addr)) :
    Alongside lib conn s (exec lib expired o s).2 := by
  refine ⟨peers,?_⟩
  rw [ownSink,links,ownSink]
  cases s.links.lookup conn with
  | none => rfl
  | some link => exact sinks link

/- The frame of a registration from its receipt to the next read. -/
theorem frameHandled {link : Link} (isOpen : s.links.lookup conn = some link) {f : Bytes}
    (handle : treat lib link f = .handle bytes) (parsed : lib.parse bytes = some m) (registers : Registers m) :
    Handled lib conn m s ((program lib key (.tcp conn f draws)).run (exec lib expired) s).2
      (sends lib expired (program lib key (.tcp conn f draws)) s) := by
  have rest : ∀ u, Handled lib conn m u
      ((handleTcp lib link.config key conn bytes draws >>= fun keep =>
        if keep then act (.served conn) else closing lib conn).run (exec lib expired) u).2
      (sends lib expired (handleTcp lib link.config key conn bytes draws >>= fun keep =>
        if keep then act (.served conn) else closing lib conn) u) := by
    intro u
    obtain ⟨keep,handled⟩ := registrationHandled lib expired key conn link.config draws parsed registers u
    rw [runBind,sendsBind,keep,if_pos rfl]
    generalize ((handleTcp lib link.config key conn bytes draws).run (exec lib expired) u).2 = v at handled
    rw [show sends lib expired (act (.served conn)) v = [] from rfl,List.append_nil]
    exact ⟨handled.slot,handled.answer,handled.silent⟩
  unfold program
  refine handledNext (fun _ => rfl) ?_ ?_
  · refine alongsideRefit (fun link => { link with dec := link.dec.map fun d => (d.1,d.2 ++ [f]) }) (fun _ => rfl) ?_ ?_
    · rw [execLink,linkAfter,if_pos rfl]
      rfl
    · rw [execPeer]
      rfl
  · have given : (exec lib expired (.receive conn (some f)) s).1 = some link := isOpen
    generalize (exec lib expired (.receive conn (some f)) s).2 = u
    rw [given]
    show Handled lib conn m u ((serve lib key conn f draws link).run (exec lib expired) u).2
      (sends lib expired (serve lib key conn f draws link) u)
    unfold serve
    rw [handle]
    dsimp only
    split
    · refine handledNext (o := .offerKey conn none) (fun _ => rfl) ?_ (rest _)
      refine alongsideRefit (fun link => { link with offer := none }) (fun _ => rfl) ?_ ?_
      · rw [execLink,linkAfter,if_pos rfl]
      · rw [execPeer]
        rfl
    · exact rest u

/- A registration gets hold of the write half wherever an open connection has it, and of no other. -/
theorem slotAfterAt {stage : Stage} {link : Link} (located : Located lib conn s stage)
    (isOpen : s.links.lookup conn = some link) :
    (∃ sink, Writes conn sink ∧ slotAfter lib s conn = some sink ∧ (ownSink s conn).isSome = true) ∨
    (∃ sink, Writes conn sink ∧ slotAfter lib s conn = some sink ∧ (s.tcpPeers.lookup (lib.tryIntoV4 conn.addr)).isSome = true) ∨
    slotAfter lib s conn = none ∧ ownSink s conn = none ∧ s.tcpPeers.lookup (lib.tryIntoV4 conn.addr) = none := by
  unfold Located at located
  unfold slotAfter ownSink
  rw [isOpen] at located ⊢
  generalize s.tcpPeers.lookup (lib.tryIntoV4 conn.addr) = slot at located ⊢
  cases located with
  | held own writes => exact .inl ⟨_,writes,by rw [Option.bind_some,own]; rfl,by rw [Option.bind_some,own]; rfl⟩
  | registered gone writes => exact .inr (.inl ⟨_,writes,by rw [Option.bind_some,gone]; rfl,rfl⟩)
  | given gone => exact .inr (.inr ⟨by rw [Option.bind_some,gone]; rfl,gone,rfl⟩)

/- What is pushed to the address of a registered connection is written to it until it is closed. -/
theorem pushedToRegistered {sink : Sink} (located : Located lib conn s (.registered sink)) (writes : Writes conn sink)
    (hs : List Happening) {addr : SocketAddr} (here : lib.tryIntoV4 addr = lib.tryIntoV4 conn.addr) (msg : Message)
    (isOpen : ((afterAll lib expired key conn s hs).links.lookup conn).isSome) :
    sends lib expired (deliver lib msg addr) (afterAll lib expired key conn s hs) = [(.sink sink,msg)] := by
  obtain ⟨stage,later,there⟩ := allLater expired key hs located
  unfold Located at there
  generalize afterAll lib expired key conn s hs = v at isOpen there ⊢
  have slot : v.tcpPeers.lookup (lib.tryIntoV4 conn.addr) = some sink := by
    generalize v.tcpPeers.lookup (lib.tryIntoV4 conn.addr) = slot at there
    generalize v.links.lookup conn = link at isOpen there
    rcases laterRegistered later with rfl | rfl
    · cases there with
      | registered => rfl
    · cases there with
      | closed => cases isOpen
  rw [(deliverRun addr msg v).2,here,slot]
  exact slotLive (writesLive writes) msg

/- A registration is served exactly when the write half was not given away before it. -/
theorem servedIfKept (run : Sequence lib expired key conn s) {link : Link} (isOpen : s.links.lookup conn = some link) {f : Bytes}
    (handle : treat lib link f = .handle bytes) (parsed : lib.parse bytes = some m) (registers : Registers m) (draws : Draws) :
    Served lib expired key conn s f draws m ↔
      (ownSink s conn).isSome = true ∨ (s.tcpPeers.lookup (lib.tryIntoV4 conn.addr)).isSome = true := by
  obtain ⟨stage,located⟩ := sequenceLocated run
  have handled : Handled lib conn m s ((program lib key (.tcp conn f draws)).run (exec lib expired) s).2
    (sends lib expired (program lib key (.tcp conn f draws)) s) := frameHandled isOpen handle parsed registers
  have kept : ∀ sink, Writes conn sink → slotAfter lib s conn = some sink → Served lib expired key conn s f draws m := by
    intro sink writes adopted
    obtain ⟨r,answers,member⟩ := handled.answer sink adopted writes
    refine ⟨⟨sink,r,writes,answers,member⟩,fun hs addr msg here opened => ⟨sink,writes,?_⟩⟩
    have slot := handled.slot.trans adopted
    obtain ⟨stage',_,there⟩ := happeningLater expired key (.frame f draws) located
    have registered : Located lib conn (Happening.after lib expired key conn s (.frame f draws)) (.registered sink) := by
      unfold Located at there ⊢
      rw [show (Happening.after lib expired key conn s (.frame f draws)).tcpPeers.lookup _ = some sink from slot] at there ⊢
      generalize (Happening.after lib expired key conn s (.frame f draws)).links.lookup conn = after at there ⊢
      cases there with
      | registered gone mine => exact .registered gone mine
    exact pushedToRegistered registered writes hs here msg opened
  constructor
  · intro served
    obtain ⟨sink,r,_,_,member⟩ := served.answered
    rcases slotAfterAt located isOpen with ⟨_,_,_,own⟩ | ⟨_,_,_,slot⟩ | ⟨none,_⟩
    · exact .inl own
    · exact .inr slot
    · rw [handled.silent none] at member
      cases member
  · intro there
    rcases slotAfterAt located isOpen with ⟨sink,writes,adopted,_⟩ | ⟨sink,writes,adopted,_⟩ | ⟨_,own,slot⟩
    · exact kept sink writes adopted
    · exact kept sink writes adopted
    · rw [own,slot] at there
      simp at there

end Registrations

section Concrete

def peerConn : Conn := ⟨0,⟨.v4 198 51 100 7,4000⟩,false⟩

def ownKey : PeerRegistry.RegisterPk := ⟨"100000003",[1],[2]⟩

/- A request for a peer that does not exist, and a registration. -/
def requestOrKey : Bytes → Option Message
  | [1] => some (.punchHoleRequest ⟨"100000004",.asymmetric,"",controllerToken.text⟩)
  | [2] => some (.registerPk ownKey)
  | _ => none

def keys : Library := plainLibrary requestOrKey

def drawn : Draws := calm AccountCalls.mintedB

def acceptedServer : Server :=
  ((program keys "" (.accept peerConn [] [])).run (exec keys hourAgo)
    (.init signedIn (.init bootInstant .empty) oneServer)).2

def requested : Server := Happening.after keys hourAgo "" peerConn acceptedServer (.frame [1] drawn)

theorem acceptedFirst : Sequence keys hourAgo "" peerConn acceptedServer := .accepted rfl [] []

/- The request was answered on the connection; the registration after it is not, and what is pushed
to its address goes out over UDP. -/
theorem requestGivesAway : Sequence keys hourAgo "" peerConn requested ∧
    (requested.links.lookup peerConn).isSome = true ∧
    sends keys hourAgo (program keys "" (.tcp peerConn [2] drawn)) requested = [] ∧
    ((registry (PeerRegistry.PeerMap.get ownKey.id false)).run (exec keys hourAgo)
      (afterAll keys hourAgo "" peerConn requested [.frame [2] drawn])).1.isSome = true ∧
    sends keys hourAgo (deliver keys (.requestRelay {}) peerConn.addr)
      (afterAll keys hourAgo "" peerConn requested [.frame [2] drawn]) = [(.udp peerConn.addr,.requestRelay {})] ∧
    ¬ Served keys hourAgo "" peerConn requested [2] drawn (.registerPk ownKey) := by
  have silent : sends keys hourAgo (program keys "" (.tcp peerConn [2] drawn)) requested = [] := by decide +kernel
  refine ⟨.next acceptedFirst _,by decide +kernel,silent,by decide +kernel,by decide +kernel,fun served => ?_⟩
  obtain ⟨sink,r,_,_,member⟩ := served.answered
  rw [silent] at member
  cases member

theorem registrationFirst : (ownSink acceptedServer peerConn).isSome = true ∧
    Served keys hourAgo "" peerConn acceptedServer [2] drawn (.registerPk ownKey) := by
  have own : (ownSink acceptedServer peerConn).isSome = true := by decide +kernel
  obtain ⟨link,isOpen⟩ : ∃ link, acceptedServer.links.lookup peerConn = some link :=
    Option.isSome_iff_exists.mp (by decide +kernel)
  have handle : treat keys link [2] = .handle [2] := by
    have plain : (acceptedServer.links.lookup peerConn).map (fun link => (link.offer,link.dec)) = some (none,none) := by
      decide +kernel
    rw [isOpen] at plain
    obtain ⟨offer,dec⟩ := Prod.mk.inj (Option.some.inj plain)
    simp only [treat,offer,dec]
  exact ⟨own,(servedIfKept acceptedFirst isOpen handle rfl ⟨by decide,by decide⟩ drawn).mpr (.inl own)⟩

end Concrete
end OpenuuServer.PeerConnection
