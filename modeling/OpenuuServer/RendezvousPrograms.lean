import OpenuuServer.RendezvousServer

/-! The parts of hbbs's handlers, each with the operations it may execute. A fact that holds of
single operations is carried through a handler by these lemmas. -/
namespace OpenuuServer.RendezvousPrograms
open AtomicProgram RendezvousMessages RendezvousServer
open PeerRegistry (Bytes SocketAddr LockPeer Registry Outage)

section Parts
variable {lib : Library} {Q : Op → Prop} {addr : SocketAddr} {conn : Conn} {config : Config} {msg : Message}
variable {draws : Draws}

theorem everyAccount {α : Type} (all : ∀ o, Q (.account o)) (p : Prog AccountStore.Op AccountStore.Resp α) :
    (account p).Every Q := everyEmbed all p

theorem everyRegistry {α : Type} (all : ∀ o, Q (.registry o)) (p : Prog PeerRegistry.Op PeerRegistry.Resp α) :
    (registry p).Every Q := everyEmbed all p

theorem everyAuthorized (all : ∀ o, Q (.account o)) (token : String) : (authorized lib token draws).Every Q := by
  unfold authorized
  rw [everyIte]
  refine ⟨fun _ => trivial,fun _ => everyBind (everyAccount all _) fun found => ?_⟩
  split <;> trivial

theorem everyPeerTicket (all : ∀ o, Q (.account o)) (token uuid : String) : (peerTicket lib token uuid draws).Every Q := by
  unfold peerTicket
  rw [everyIte]
  refine ⟨fun _ => trivial,fun _ => everyBind (everyAccount all _) fun made => ?_⟩
  split <;> trivial

theorem everySendToSink {sink : Option Sink} (send : ∀ s, sink = some s → Q (.send (.sink s) msg)) :
    (sendToSink sink msg).Every Q := by
  unfold sendToSink act
  split
  · trivial
  · trivial
  · exact ⟨send _ rfl,fun _ => trivial⟩

theorem everySendToTcpPeer (take : ∀ key, Q (.peersTake key)) (send : ∀ s, Q (.send (.sink s) msg))
    (back : ∀ key s, Q (.peersPutBack key s)) : (sendToTcpPeer lib addr msg).Every Q := by
  unfold sendToTcpPeer act
  simp only [performIs,bindOp,bindRet]
  refine ⟨take _,fun taken => ?_⟩
  dsimp only
  split
  · trivial
  · trivial
  · exact everyBind (everySendToSink fun s _ => send s) fun _ => ⟨back _ _,fun _ => trivial⟩

theorem everyReplyOnConnection (read : Q (.readSink conn)) (take : ∀ key, Q (.peersTake key))
    (send : ∀ s, Q (.send (.sink s) msg)) (back : ∀ key s, Q (.peersPutBack key s)) :
    (replyOnConnection lib conn msg).Every Q := by
  unfold replyOnConnection act
  simp only [performIs,bindOp,bindRet]
  refine ⟨read,fun sink => ?_⟩
  rw [everyIte]
  exact ⟨fun _ => everySendToSink fun s _ => send s,
    fun _ => everyBind (everySendToTcpPeer take send back) fun _ => trivial⟩

theorem everySendToTcp (remove : ∀ key, Q (.punchRemove key)) (take : ∀ key, Q (.peersTake key))
    (send : ∀ s, Q (.send (.sink s) msg)) (back : ∀ key s, Q (.peersPutBack key s)) :
    (sendToTcp lib msg addr).Every Q := by
  unfold sendToTcp act
  simp only [performIs,bindOp,bindRet]
  refine ⟨remove _,fun tcp => ?_⟩
  rw [everyIte]
  exact ⟨fun _ => everyBind (everySendToTcpPeer take send back) fun _ => trivial,
    fun _ => everySendToSink fun s _ => send s⟩

theorem everyDeliver (take : ∀ key, Q (.peersTake key)) (send : ∀ route, Q (.send route msg))
    (back : ∀ key s, Q (.peersPutBack key s)) : (deliver lib msg addr).Every Q := by
  unfold deliver act
  refine everyBind (everySendToTcpPeer take (fun s => send _) back) fun delivered => ?_
  rw [everyIte]
  exact ⟨fun _ => ⟨send _,fun _ => trivial⟩,fun _ => trivial⟩

theorem everyIsTcpPeer (contains : ∀ key, Q (.peersContains key)) : (isTcpPeer lib addr).Every Q :=
  ⟨contains _,fun _ => trivial⟩

theorem everyGetRelayServer (rotate : Q .rotate) : (getRelayServer config).Every Q := by
  unfold getRelayServer act
  split
  · trivial
  · trivial
  · exact ⟨rotate,fun _ => trivial⟩

theorem everyGetPk (all : ∀ o, Q (.registry o)) (version id : String) : (getPk lib config version id draws).Every Q := by
  unfold getPk
  split
  · trivial
  · rw [everyIte]
    refine ⟨fun _ => trivial,fun _ => everyBind (everyRegistry all _) fun peer => ?_⟩
    split
    · exact everyBind (everyRegistry all _) fun _ => trivial
    · trivial

theorem everyPunchRequest {key : String} (all : ∀ o, Q (.registry o)) (seen : ∀ peer, Q (.lastSeen peer))
    (record : ∀ fromIp toIp toId, Q (.recordPunch fromIp toIp toId)) (rotate : Q .rotate) (read : Q .readAlwaysUseRelay)
    (ph : PunchHoleRequest) : (handlePunchHoleRequest lib config key conn ph draws).Every Q := by
  unfold handlePunchHoleRequest act
  simp only [performIs,bindOp,bindRet]
  rw [everyIte]
  refine ⟨fun _ => trivial,fun _ => everyBind (everyRegistry all _) fun peer => ?_⟩
  cases peer with
  | none => trivial
  | some peer =>
    refine ⟨seen peer,fun r => ?_⟩
    dsimp only
    rw [everyIte]
    refine ⟨fun _ => trivial,fun _ => ⟨record _ _ _,fun _ => everyBind (everyGetRelayServer rotate) fun _ => ?_⟩⟩
    refine ⟨read,fun _ => ?_⟩
    dsimp only
    rw [everyIte]
    exact ⟨fun _ => trivial,fun _ => trivial⟩

theorem everyAdoptSink (take : Q (.takeSink conn)) (insert : ∀ s, Q (.peersInsert (lib.tryIntoV4 conn.addr) s)) :
    (adoptSink lib conn).Every Q := by
  unfold adoptSink act
  simp only [performIs,bindOp,bindRet]
  refine ⟨take,fun sink => ?_⟩
  dsimp only
  split
  · exact ⟨insert _,fun _ => trivial⟩
  · trivial

theorem everyClosing (read : Q (.readSink conn)) (unpunch : Q (.punchRemove (lib.tryIntoV4 conn.addr)))
    (forget : Q (.peersRemove (lib.tryIntoV4 conn.addr))) (close : Q (.disconnect conn)) : (closing lib conn).Every Q := by
  unfold closing act
  simp only [performIs,bindOp,bindRet]
  refine ⟨read,fun sink => ?_⟩
  rw [everyIte]
  exact ⟨fun _ => ⟨unpunch,fun _ => ⟨forget,fun _ => ⟨close,fun _ => trivial⟩⟩⟩,
    fun _ => ⟨forget,fun _ => ⟨close,fun _ => trivial⟩⟩⟩

end Parts

/- The operations of a message handler other than those on sinks. -/
def inner : Op → Bool
  | .account _ | .registry _ | .lastSeen _ | .remember _ _ | .tokenFor _ | .recordPunch _ _ _ | .readAlwaysUseRelay
  | .rotate | .enqueue (.msg _ _) | .peersContains _ => true
  | _ => false

/- What can be said of the handling of a message part by part: a property that passes from the parts
of a program to the whole and that the parts of the handlers have. -/
structure Parts (lib : Library) (conn : Conn) (C : (α : Type) → Prog Op Resp α → Prop) : Prop where
  ret : ∀ {α : Type} (value : α), C α (.ret value)
  bind : ∀ {α β : Type} {p : Prog Op Resp α} {k : α → Prog Op Resp β}, C α p → (∀ value, C β (k value)) → C β (p >>= k)
  op : ∀ {α : Type} {o : Op} {next : Resp o → Prog Op Resp α}, inner o = true → (∀ r, C α (next r)) → C α (.op o next)
  peer : ∀ addr msg, C Bool (sendToTcpPeer lib addr msg)
  reply : ∀ msg, C Unit (replyOnConnection lib conn msg)
  answer : ∀ msg addr, C Unit (sendToTcp lib msg addr)
  adopt : C Unit (adoptSink lib conn)
  park : ∀ {α : Type} {next : Option Sink → Prog Op Resp α} {rest : Prog Op Resp α}, next none = rest →
    (∀ s, next (some s) = .op (.punchInsert (lib.tryIntoV4 conn.addr) s) fun _ => rest) → C α rest →
    C α (.op (.takeSink conn) next)

section Handlers
variable {lib : Library} {conn : Conn} {C : (α : Type) → Prog Op Resp α → Prop} {config : Config} {key : String} {draws : Draws}
variable {α : Type}

theorem partsIte {q : Prop} [Decidable q] {x y : Prog Op Resp α} (left : C α x) (right : C α y) : C α (if q then x else y) := by
  split
  · exact left
  · exact right

theorem Parts.act (parts : Parts lib conn C) (o : Op) (free : inner o = true) : C (Resp o) (RendezvousServer.act o) :=
  parts.op free fun r => parts.ret r

theorem Parts.account (parts : Parts lib conn C) (p : Prog AccountStore.Op AccountStore.Resp α) :
    C α (RendezvousServer.account p) := by
  induction p with
  | ret value => exact parts.ret value
  | op o next ih => exact parts.op rfl fun r => ih r

theorem Parts.registry (parts : Parts lib conn C) (p : Prog PeerRegistry.Op PeerRegistry.Resp α) :
    C α (RendezvousServer.registry p) := by
  induction p with
  | ret value => exact parts.ret value
  | op o next ih => exact parts.op rfl fun r => ih r

theorem Parts.authorized (parts : Parts lib conn C) (token : String) : C Bool (RendezvousServer.authorized lib token draws) := by
  refine partsIte (parts.ret _) (parts.bind (parts.account _) fun found => ?_)
  split
  · exact parts.ret _
  · exact parts.ret _

theorem Parts.peerTicket (parts : Parts lib conn C) (token uuid : String) :
    C (Option String) (RendezvousServer.peerTicket lib token uuid draws) := by
  refine partsIte (parts.ret _) (parts.bind (parts.account _) fun made => ?_)
  split
  · exact parts.ret _
  · exact parts.ret _

theorem Parts.getRelayServer (parts : Parts lib conn C) : C String (RendezvousServer.getRelayServer config) := by
  unfold RendezvousServer.getRelayServer
  split
  · exact parts.ret _
  · exact parts.ret _
  · exact parts.bind (parts.act .rotate rfl) fun _ => parts.ret _

theorem Parts.getPk (parts : Parts lib conn C) (version id : String) :
    C Bytes (RendezvousServer.getPk lib config version id draws) := by
  unfold RendezvousServer.getPk
  split
  · exact parts.ret _
  · refine partsIte (parts.ret _) (parts.bind (parts.registry _) fun peer => ?_)
    split
    · exact parts.bind (parts.registry _) fun _ => parts.ret _
    · exact parts.ret _

theorem Parts.punchRequest (parts : Parts lib conn C) (ph : PunchHoleRequest) :
    C (Message × Option SocketAddr) (handlePunchHoleRequest lib config key conn ph draws) := by
  refine partsIte (parts.ret _) (parts.bind (parts.registry _) fun peer => ?_)
  cases peer with
  | none => exact parts.ret _
  | some peer =>
    refine parts.bind (parts.act (.lastSeen peer) rfl) fun r => partsIte (parts.ret _) ?_
    refine parts.bind (parts.act (.recordPunch _ _ _) rfl) fun _ => parts.bind parts.getRelayServer fun server => ?_
    refine parts.bind (parts.act .readAlwaysUseRelay rfl) fun always => ?_
    exact partsIte (parts.ret _) (parts.ret _)

theorem Parts.punchArm (parts : Parts lib conn C) (ph : PunchHoleRequest) :
    C Bool (handlePunchArm lib config key conn ph draws) := by
  have asked : C Unit (handleTcpPunchHoleRequest lib config key conn ph draws) := by
    refine parts.bind (parts.punchRequest ph) fun made => ?_
    obtain ⟨msg,toAddr⟩ := made
    cases toAddr with
    | none => exact parts.answer _ _
    | some addr => exact parts.act (.enqueue (.msg msg addr)) rfl
  have rest : C Bool (PunchSessions.remember lib conn.addr ph.id ph.token >>= fun _ =>
      handleTcpPunchHoleRequest lib config key conn ph draws >>= fun _ => (.ret true : Prog Op Resp Bool)) :=
    parts.bind (parts.act (.remember _ _) rfl) fun _ => parts.bind asked fun _ => parts.ret _
  unfold handlePunchArm
  exact parts.bind (parts.authorized _) fun allowed => partsIte (parts.ret _) (parts.park rfl (fun _ => rfl) rest)

theorem Parts.relayArm (parts : Parts lib conn C) (rf : RequestRelay) : C Bool (handleRelayArm lib conn rf draws) := by
  unfold handleRelayArm
  refine parts.bind (parts.authorized _) fun allowed => partsIte (parts.ret _) ?_
  refine parts.bind (parts.peerTicket _ _) fun ticket => parts.park rfl (fun _ => rfl) ?_
  refine parts.bind (p := RendezvousServer.registry _) (parts.registry _) fun peer => ?_
  cases (peer : Option LockPeer) with
  | none => exact parts.ret _
  | some peer =>
    exact parts.bind (parts.registry _) fun _ => parts.bind (parts.act (.enqueue (.msg _ _)) rfl) fun _ => parts.ret _

theorem Parts.responseArm (parts : Parts lib conn C) (rr : RelayResponse) :
    C Unit (handleResponseArm lib config conn rr draws) := by
  have answered : ∀ controller, C Unit (answerPeerInitiatedRelay lib rr controller conn draws) := by
    intro controller
    refine partsIte (parts.ret _) (parts.bind (parts.act (.tokenFor _) rfl) fun token => ?_)
    cases (token : Option String) with
    | none => exact parts.ret _
    | some token =>
      refine parts.bind (parts.peerTicket _ _) fun ticket => ?_
      cases ticket with
      | none => exact parts.ret _
      | some ticket => exact parts.reply _
  have named : ∀ rr, C RelayResponse (withPk lib config rr draws) := fun rr =>
    partsIte (parts.ret _) (parts.bind (parts.getPk _ _) fun _ => parts.ret _)
  have chosen : ∀ rr addrB, C String (relayServerFor config rr addrB) := fun rr addrB =>
    partsIte (parts.ret _) (partsIte (parts.ret _) (partsIte parts.getRelayServer (parts.ret _)))
  exact parts.bind (answered _) fun _ => parts.bind (named _) fun rr => parts.bind (chosen _ _) fun _ => parts.answer _ _

theorem Parts.handleTcp (parts : Parts lib conn C) (bytes : Bytes) :
    C Bool (RendezvousServer.handleTcp lib config key conn bytes draws) := by
  have tcpPeer : C Bool (isTcpPeer lib conn.addr) := parts.act (.peersContains _) rfl
  unfold RendezvousServer.handleTcp
  split
  · exact parts.punchArm _
  · exact parts.relayArm _
  · exact parts.bind (parts.responseArm _) fun _ => tcpPeer
  · exact parts.bind (parts.bind (parts.getPk _ _) fun _ => parts.answer _ _) fun _ => tcpPeer
  · exact parts.bind (parts.bind (parts.getPk _ _) fun _ => parts.answer _ _) fun _ => tcpPeer
  · exact parts.bind (parts.reply _) fun _ => tcpPeer
  · refine parts.bind ?_ fun _ => parts.ret _
    refine partsIte (parts.ret _) (parts.bind parts.adopt fun _ => parts.bind (parts.registry _) fun _ => ?_)
    refine parts.bind (parts.peer _ _) fun _ => partsIte ?_ (parts.ret _)
    exact parts.bind (parts.peer _ _) fun _ => parts.ret _
  · refine parts.bind ?_ fun _ => parts.ret _
    refine partsIte (parts.ret _) (parts.bind parts.adopt fun _ => parts.bind (parts.registry _) fun _ => ?_)
    exact parts.bind (parts.peer _ _) fun _ => parts.ret _
  · exact tcpPeer

end Handlers

/- The operations on sinks and links in the handling of a connection. -/
def outer : Op → Bool
  | .readSink _ | .takeSink _ | .punchInsert _ _ | .punchRemove _ | .peersInsert _ _ | .peersTake _ | .peersPutBack _ _
  | .peersRemove _ | .send (.sink _) _ | .offerKey _ _ | .secure _ _ | .served _ | .disconnect _ => true
  | _ => false

section Every
variable {lib : Library} {conn : Conn} {config : Config} {key : String} {draws : Draws} {Q : Op → Prop}

/- A connection gives its sink away, or has none to give. -/
theorem everyPark {α : Type} {next : Option Sink → Prog Op Resp α} {rest : Prog Op Resp α} (take : Q (.takeSink conn))
    (insert : ∀ s, Q (.punchInsert (lib.tryIntoV4 conn.addr) s)) (absent : next none = rest)
    (present : ∀ s, next (some s) = .op (.punchInsert (lib.tryIntoV4 conn.addr) s) fun _ => rest) (all : rest.Every Q) :
    (Prog.op (.takeSink conn) next : Prog Op Resp α).Every Q := by
  refine ⟨take,fun sink => ?_⟩
  cases (sink : Option Sink) with
  | none =>
    rw [absent]
    exact all
  | some s =>
    rw [present]
    exact ⟨insert s,fun _ => all⟩

theorem everyParts (inners : ∀ o, inner o = true → Q o) (outers : ∀ o, outer o = true → Q o) :
    Parts lib conn fun _ p => p.Every Q where
  ret _ := trivial
  bind := everyBind
  op free rest := ⟨inners _ free,rest⟩
  peer _ _ := everySendToTcpPeer (fun _ => outers _ rfl) (fun _ => outers _ rfl) fun _ _ => outers _ rfl
  reply _ := everyReplyOnConnection (outers _ rfl) (fun _ => outers _ rfl) (fun _ => outers _ rfl) fun _ _ => outers _ rfl
  answer _ _ := everySendToTcp (fun _ => outers _ rfl) (fun _ => outers _ rfl) (fun _ => outers _ rfl) fun _ _ => outers _ rfl
  adopt := everyAdoptSink (outers _ rfl) fun _ => outers _ rfl
  park absent present rest := everyPark (outers _ rfl) (fun _ => outers _ rfl) absent present rest

theorem everyAct {o : Op} (here : Q o) : (act o).Every Q := ⟨here,fun _ => trivial⟩

theorem everyRelayServerFor {rr : RelayResponse} {addrB : SocketAddr} (rotate : Q .rotate) :
    (relayServerFor config rr addrB).Every Q :=
  everyIte.mpr ⟨fun _ => trivial,fun _ => everyIte.mpr ⟨fun _ => trivial,fun _ =>
    everyIte.mpr ⟨fun _ => everyGetRelayServer rotate,fun _ => trivial⟩⟩⟩

theorem everyPeerInitiated {rr : RelayResponse} {controller : SocketAddr} (find : ∀ k, Q (.tokenFor k))
    (ask : ∀ o, Q (.account o)) (read : Q (.readSink conn)) (take : ∀ k, Q (.peersTake k))
    (send : ∀ s r, Q (.send (.sink s) (.requestRelay r))) (back : ∀ k s, Q (.peersPutBack k s)) :
    (answerPeerInitiatedRelay lib rr controller conn draws).Every Q := by
  refine everyIte.mpr ⟨fun _ => trivial,fun _ => ⟨find _,fun token => ?_⟩⟩
  cases (token : Option String) with
  | none => trivial
  | some token =>
    refine everyBind (p := peerTicket lib token rr.uuid draws) (everyPeerTicket ask _ _) fun ticket => ?_
    cases ticket with
    | none => trivial
    | some ticket => exact everyReplyOnConnection read take (fun s => send s _) back

theorem everyRelayArm {rf : RequestRelay} (ask : ∀ o, Q (.account o)) (take : Q (.takeSink conn))
    (insert : ∀ k s, Q (.punchInsert k s)) (find : ∀ id, Q (.registry (.mapRead id)))
    (read : ∀ peer, Q (.registry (.peerRead peer))) (queue : ∀ r addr, Q (.enqueue (.msg (.requestRelay r) addr))) :
    (handleRelayArm lib conn rf draws).Every Q := by
  refine everyBind (everyAuthorized ask _) fun allowed => everyIte.mpr ⟨fun _ => trivial,fun _ => ?_⟩
  refine everyBind (everyPeerTicket ask _ _) fun ticket => everyPark take (insert _) rfl (fun _ => rfl) ⟨find _,fun peer => ?_⟩
  cases (peer : Option LockPeer) with
  | none => trivial
  | some peer => exact ⟨read _,fun p => ⟨queue _ _,fun _ => trivial⟩⟩

theorem everyServe (inners : ∀ o, inner o = true → Q o) (outers : ∀ o, outer o = true → Q o) (frame : Bytes) (link : Link) :
    (serve lib key conn frame draws link).Every Q := by
  have closes : (closing lib conn).Every Q := everyClosing (outers _ rfl) (outers _ rfl) (outers _ rfl) (outers _ rfl)
  have handled : ∀ bytes, (handleTcp lib link.config key conn bytes draws >>= fun keep =>
      if keep then act (.served conn) else closing lib conn).Every Q := by
    refine fun bytes => everyBind ((everyParts inners outers).handleTcp bytes) fun keep => ?_
    split
    · exact everyAct (outers _ rfl)
    · exact closes
  unfold serve
  split
  · exact ⟨outers _ rfl,fun _ => everyAct (outers _ rfl)⟩
  · exact closes
  · split
    · exact ⟨outers _ rfl,fun _ => handled _⟩
    · exact handled _

theorem everyOnlineList (all : ∀ o, Q (.registry o)) (seen : ∀ peer, Q (.lastSeen peer)) (peers : List String) :
    (onlineList peers).Every Q := by
  induction peers with
  | nil => trivial
  | cons id rest ih =>
    have later : ∀ online : Bool, (onlineList rest >>= fun others =>
        (.ret (online :: others) : Prog Op Resp (List Bool))).Every Q := fun online => everyBind ih fun _ => trivial
    unfold onlineList
    refine everyBind (everyRegistry all _) fun peer => ?_
    cases (peer : Option LockPeer) with
    | none => exact later false
    | some peer => exact ⟨seen peer,fun r => later _⟩

theorem everyOnlineCount (seen : ∀ peer, Q (.lastSeen peer)) (timeout : Nat) (peers : List LockPeer) :
    (onlineCount timeout peers).Every Q := by
  induction peers with
  | nil => trivial
  | cons peer rest ih =>
    unfold onlineCount act
    simp only [performIs,bindOp,bindRet]
    exact ⟨seen peer,fun _ => everyBind ih fun _ => trivial⟩

theorem everyPeerTransport (list : Q .listed) (seen : ∀ peer, Q (.lastSeen peer)) (length : Q .tcpPeersLen)
    (report : ∀ online tcp udp, Q (.report online tcp udp)) : logPeerTransport.Every Q := by
  unfold logPeerTransport act
  simp only [performIs,bindOp,bindRet]
  exact ⟨list,fun _ => everyBind (everyOnlineCount seen _ _) fun _ => ⟨length,fun _ => everyAct (report _ _ _)⟩⟩

theorem everyTurning {α : Type} {body : Config → Prog Op Resp α} (enter : Q .loopTurn) (leave : Q .loopDone)
    (all : ∀ config, (body config).Every Q) : (turning body).Every Q := by
  unfold turning act
  simp only [performIs,bindOp,bindRet]
  exact ⟨enter,fun config => everyBind (all config) fun value => ⟨leave,fun _ => trivial⟩⟩

theorem everyUdp (all : ∀ o, Q (.registry o)) {addr : SocketAddr} (send : ∀ m, Q (.send (.udp addr) m))
    (configure : ∀ config, Q (.setConfig config)) (bytes : Bytes) : (handleUdp lib config addr bytes draws).Every Q := by
  unfold handleUdp
  split
  · refine everyIte.mpr ⟨fun _ => everyBind (everyRegistry all _) fun _ => ⟨send _,fun _ => ?_⟩,fun _ => trivial⟩
    exact everyIte.mpr ⟨fun _ => everyAct (send _),fun _ => trivial⟩
  · exact everyIte.mpr ⟨fun _ => trivial,fun _ => everyBind (everyRegistry all _) fun _ => everyAct (send _)⟩
  · exact everyAct (send _)
  · exact everyIte.mpr ⟨fun _ => everyAct (configure _),fun _ => trivial⟩
  · exact everyIte.mpr ⟨fun _ => everyAct (send _),fun _ => trivial⟩
  · trivial

end Every

/- The operations that a call may perform. -/
def Performs : Call → Op → Prop
  | .account _,.account _ => True
  | .accept _ _ _,.loopTurn | .accept _ _ _,.loopDone => True
  | .accept conn _ _,.connect conn' _ | .accept conn _ _,.offerKey conn' _ | .accept conn _ _,.served conn' => conn' = conn
  | .accept conn _ _,.send route _ => route = .sink (.tcpStream conn none)
  | .tcp conn frame _,.receive conn' frame' => conn' = conn ∧ frame' = some frame
  | .tcp _ _ _,o => inner o = true ∨ outer o = true
  | .close conn,.receive conn' frame => conn' = conn ∧ frame = none
  | .close _,o => outer o = true
  | .udp _ _ _,.loopTurn | .udp _ _ _,.loopDone | .udp _ _ _,.registry _ | .udp _ _ _,.setConfig _ => True
  | .udp addr _ _,.send route _ => route = .udp addr
  | .turn,.loopTurn | .turn,.loopDone | .turn,.dequeue | .turn,.setConfig _ => True
  | .turn,.peersTake _ | .turn,.peersPutBack _ _ | .turn,.send _ _ => True
  | .nat _ _,.loopTurn | .nat _ _,.loopDone | .nat _ _,.registry _ | .nat _ _,.lastSeen _ => True
  | .nat addr _,.send route _ => route = .stream addr
  | .console _ _,.loopTurn | .console _ _,.loopDone | .console _ .testGeo,.rotate => True
  | .console _ (.ipBlocker _),.trimBlocker _ | .console _ (.ipChanges _),.trimChanges _ => True
  | .console _ .clearPunchRequests,.clearPunchReqs => True
  | .console _ (.alwaysUseRelay _),.setAlwaysUseRelay _ => True
  | .console _ (.relayServers rs),.enqueue d | .console _ (.alwaysUseRelay rs),.enqueue d => d = .relayServers0 rs
  | .relayCheck _,.loopTurn | .relayCheck _,.loopDone => True
  | .relayCheck _,.enqueue d => ∃ rs, d = .relayServers rs
  | .peerTransport,.loopTurn | .peerTransport,.loopDone | .peerTransport,.listed | .peerTransport,.lastSeen _ => True
  | .peerTransport,.tcpPeersLen | .peerTransport,.report _ _ _ => True
  | .testHbbs addr,.send route _ => route = .udp addr
  | _,_ => False

theorem programPerforms (lib : Library) (key : String) (c : Call) : (program lib key c).Every (Performs c) := by
  unfold program
  cases c with
  | account c => exact everyBind (everyAccount (fun _ => trivial) _) fun _ => trivial
  | accept conn secret publicKey =>
    refine everyBind (everyTurning trivial trivial fun _ => trivial) fun config => ⟨rfl,fun _ => ?_⟩
    have rest : (act (.served conn)).Every (Performs (.accept conn secret publicKey)) := everyAct rfl
    dsimp only
    refine everyIte.mpr ⟨fun _ => ?_,fun _ => rest⟩
    cases config.inner.sk with
    | none => exact rest
    | some sk => exact ⟨rfl,fun _ => ⟨rfl,fun _ => rest⟩⟩
  | tcp conn frame draws =>
    refine ⟨⟨rfl,rfl⟩,fun link => ?_⟩
    have inners : ∀ o, inner o = true → Performs (.tcp conn frame draws) o := by
      intro o free
      cases o with
      | receive conn' frame' => contradiction
      | _ => exact .inl free
    have outers : ∀ o, outer o = true → Performs (.tcp conn frame draws) o := by
      intro o free
      cases o with
      | receive conn' frame' => contradiction
      | _ => exact .inr free
    cases (link : Option Link) with
    | none => trivial
    | some link => exact everyServe inners outers _ _
  | close conn => exact ⟨⟨rfl,rfl⟩,fun _ => everyClosing rfl rfl rfl rfl⟩
  | udp addr bytes draws =>
    exact everyTurning trivial trivial fun config => everyUdp (fun _ => trivial) (fun _ => rfl) (fun _ => trivial) _
  | turn =>
    refine everyTurning trivial trivial fun config => ⟨trivial,fun data => ?_⟩
    cases (data : Option Data) with
    | none => trivial
    | some data =>
      cases data with
      | msg m addr => exact everyDeliver (fun _ => trivial) (fun _ => trivial) fun _ _ => trivial
      | relayServers0 rs => exact everyAct trivial
      | relayServers rs => exact everyAct trivial
  | nat addr bytes =>
    refine everyBind (everyTurning trivial trivial fun _ => trivial) fun config => everyIte.mpr ⟨fun _ => ?_,fun _ => trivial⟩
    split
    · exact everyAct rfl
    · exact everyBind (everyOnlineList (fun _ => trivial) (fun _ => trivial) _) fun _ => everyAct rfl
    · trivial
  | console addr cmd =>
    refine everyBind (everyTurning trivial trivial fun _ => trivial) fun config => everyIte.mpr ⟨fun _ => ?_,fun _ => trivial⟩
    cases cmd with
    | relayServers rs => exact everyAct rfl
    | alwaysUseRelay arg => exact ⟨trivial,fun _ => everyAct rfl⟩
    | testGeo => exact everyBind (everyGetRelayServer trivial) fun _ => trivial
    | display => trivial
    | _ => exact everyAct trivial
  | relayCheck reachable =>
    refine everyBind (everyTurning trivial trivial fun _ => trivial) fun config => everyIte.mpr ⟨fun _ => ?_,fun _ => trivial⟩
    exact everyIte.mpr ⟨fun _ => everyAct ⟨_,rfl⟩,fun _ => trivial⟩
  | peerTransport => exact everyTurning trivial trivial fun _ =>
      everyPeerTransport trivial (fun _ => trivial) trivial fun _ _ _ => trivial
  | testHbbs addr => exact everyAct rfl

end OpenuuServer.RendezvousPrograms
