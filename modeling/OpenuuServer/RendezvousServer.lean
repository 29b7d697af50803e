import OpenuuServer.AccountCalls
import OpenuuServer.RendezvousMessages
import Mathlib.Data.Nat.Digits.Defs
import Mathlib.Data.Nat.Digits.Lemmas

/-! hbbs as a server: connections, datagrams, the queue of pushed messages and the maps the
handlers share, over the account store and the peer registry. A lock section, a statement
or a write is one operation; a message on a connection, a datagram and a turn of the main
loop are calls. Sends that fail are not distinguished from sends that succeed, and the task
that `send_to_tcp` spawns for its one send runs in place. -/
namespace OpenuuServer.RendezvousServer
open AtomicProgram RendezvousMessages
open PeerRegistry (Bytes SocketAddr LockPeer Registry Outage)
open AccountStore (Store Minted)
open IpText

/- A connection and the address hbbs takes it to come from: over WebSocket the one a reverse
proxy may have named. -/
structure Conn where
  number : Nat
  addr : SocketAddr
  ws : Bool
  deriving DecidableEq

inductive Sink where
  | tcpStream (conn : Conn) (enc : Option Bytes)
  | ws (conn : Conn)
  | closed
  deriving DecidableEq

inductive Route where
  | sink (s : Sink)
  | stream (addr : SocketAddr)
  | udp (addr : SocketAddr)
  deriving DecidableEq

/- What the task of a connection keeps between two frames: `offer` is the secret key behind the
KeyExchange it sent, `dec` the agreed key and the frames received since. -/
structure Link where
  config : Config
  sink : Option Sink
  offer : Option Bytes
  dec : Option (Bytes × List Bytes)

/- What the read loop makes of a frame. -/
inductive Treatment where
  | exchange (key : Bytes)
  | handle (bytes : Bytes)
  | refuse
  deriving DecidableEq

structure PunchReqEntry where
  tm : Nat
  fromIp : String
  toIp : String
  toId : String
  deriving DecidableEq

inductive Data where
  | msg (m : Message) (addr : SocketAddr)
  | relayServers0 (rs : String)
  | relayServers (rs : List String)
  deriving DecidableEq

abbrev Sinks := AList fun _ : SocketAddr => Sink
abbrev Sessions := AList fun _ : SocketAddr × String => String × Nat

/- `registry.now` is the monotonic clock in nanoseconds, `accounts.now` the host's in seconds. -/
structure Server where
  accounts : Store
  registry : Registry
  config : Config
  accepted : List Conn
  links : AList fun _ : Conn => Link
  serving : List Conn
  looping : Bool
  tcpPunch : Sinks
  tcpPeers : Sinks
  punchSessions : Sessions
  punchReqs : List PunchReqEntry
  alwaysUseRelay : Bool
  rotation : Nat
  queue : List Data

def Server.init (accounts : Store) (registry : Registry) (config : Config) : Server where
  accounts := accounts
  registry := registry
  config := config
  accepted := []
  links := ∅
  serving := []
  looping := false
  tcpPunch := ∅
  tcpPeers := ∅
  punchSessions := ∅
  punchReqs := []
  alwaysUseRelay := false
  rotation := 0
  queue := []

inductive Op where
  | account (o : AccountStore.Op)
  | registry (o : PeerRegistry.Op)
  | lastSeen (peer : LockPeer)
  | listed
  | tcpPeersLen
  | report (online tcp udp : Nat)
  | loopTurn
  | loopDone
  | setConfig (config : Config)
  | connect (conn : Conn) (config : Config)
  | receive (conn : Conn) (frame : Option Bytes)
  | served (conn : Conn)
  | disconnect (conn : Conn)
  | offerKey (conn : Conn) (secret : Option Bytes)
  | secure (conn : Conn) (key : Bytes)
  | readSink (conn : Conn)
  | takeSink (conn : Conn)
  | punchInsert (addr : SocketAddr) (sink : Sink)
  | punchRemove (addr : SocketAddr)
  | peersInsert (addr : SocketAddr) (sink : Sink)
  | peersTake (addr : SocketAddr)
  | peersPutBack (addr : SocketAddr) (sink : Sink)
  | peersContains (addr : SocketAddr)
  | peersRemove (addr : SocketAddr)
  | remember (key : SocketAddr × String) (token : String)
  | tokenFor (key : SocketAddr × String)
  | recordPunch (fromIp toIp toId : String)
  | clearPunchReqs
  | trimBlocker (forget : Option String)
  | trimChanges (forget : Option String)
  | readAlwaysUseRelay
  | setAlwaysUseRelay (on : Bool)
  | rotate
  | enqueue (d : Data)
  | dequeue
  | send (route : Route) (m : Message)
  deriving DecidableEq

@[reducible] def Resp : Op → Type
  | .account o => AccountStore.Resp o
  | .registry o => PeerRegistry.Resp o
  | .lastSeen _ => Nat × SocketAddr
  | .listed => List LockPeer
  | .tcpPeersLen => Nat
  | .loopTurn => Config
  | .receive _ _ => Option Link
  | .readSink _ | .takeSink _ | .punchRemove _ | .peersTake _ => Option Sink
  | .peersContains _ | .readAlwaysUseRelay => Bool
  | .tokenFor _ => Option String
  | .rotate => Nat
  | .dequeue => Option Data
  | _ => Unit

section Maps
variable {α β : Type} [DecidableEq α]

/- `HashMap::retain` -/
def retain (keeps : β → Bool) (m : AList fun _ : α => β) : AList fun _ : α => β :=
  ⟨m.entries.filter fun entry => keeps entry.2,.sublist List.filter_sublist m.nodupKeys⟩

theorem lookupRetain (keeps : β → Bool) (m : AList fun _ : α => β) (a : α) :
    (retain keeps m).lookup a = (m.lookup a).filter keeps := by
  refine Option.ext fun b => ?_
  rw [← Option.mem_def,AList.mem_lookup_iff,← Option.mem_def,Option.mem_filter_iff,AList.mem_lookup_iff]
  simp [retain]

end Maps

def Server.relink (s : Server) (conn : Conn) (f : Link → Link) : Server :=
  match s.links.lookup conn with
  | some link => { s with links := s.links.insert conn (f link) }
  | none => s

/- Entries are remembered for 60 seconds. -/
def ttl : Nat := 60000000000

def encrypted (key : Bytes) : Sink → Sink
  | .tcpStream conn _ => .tcpStream conn (some key)
  | other => other

/- The same punch request within a minute is not recorded again; only the last thirty
entries are looked at. -/
def duplicate (now : Nat) (fromIp toId : String) (reqs : List PunchReqEntry) : Bool :=
  match (reqs.reverse.take 30).find? fun e => e.fromIp = fromIp && e.toId = toId with
  | some e => PeerRegistry.elapsedSecs now e.tm < 60
  | none => false

def dropped {β : Type} (forget : Option String) (m : AList fun _ : String => β) : AList fun _ : String => β :=
  match forget with
  | some name => m.erase name
  | none => m

/- What the console leaves of the maps of the registry: nothing that is out of date, and nothing of
the address or id that is named. -/
def trimBlocker (now : Nat) (forget : Option String) (blocker : PeerRegistry.IpBlocker) : PeerRegistry.IpBlocker :=
  dropped forget (retain (fun entry => decide (PeerRegistry.elapsedSecs now entry.1.2 ≤ 60) ||
    decide (PeerRegistry.elapsedSecs now entry.2.2 ≤ 86400)) blocker)

def trimChanges (now : Nat) (forget : Option String) (changes : PeerRegistry.IpChanges) : PeerRegistry.IpChanges :=
  dropped forget (retain (fun entry => decide (PeerRegistry.elapsedSecs now entry.1 < 360) &&
    decide (1 < entry.2.entries.length)) changes)

section Semantics
variable (lib : Library) (expired : Nat → Nat)

def exec : (o : Op) → Server → Resp o × Server
  | .account o,s =>
    let done := AccountStore.exec lib.prim o s.accounts
    (done.1,{ s with accounts := done.2 })
  | .registry o,s =>
    let done := PeerRegistry.exec expired o s.registry
    (done.1,{ s with registry := done.2 })
  | .lastSeen peer,s =>
    let p := s.registry.peer peer
    (((s.registry.now - p.lastRegTime) / 1000000,p.socketAddr),s)
  | .listed,s => (s.registry.map.entries.map Sigma.snd,s)
  | .tcpPeersLen,s => (s.tcpPeers.entries.length,s)
  | .report _ _ _,s => ((),s)
  | .loopTurn,s => (s.config,{ s with looping := true })
  | .loopDone,s => ((),{ s with looping := false })
  | .setConfig config,s => ((),{ s with config := config })
  | .connect conn config,s =>
    let sink : Sink := if conn.ws then .ws conn else .tcpStream conn none
    ((),{ s with
      accepted := conn :: s.accepted
      links := s.links.insert conn ⟨config,some sink,none,none⟩
      serving := conn :: s.serving })
  | .receive conn frame,s =>
    (s.links.lookup conn,{ s.relink conn (fun link => { link with dec := link.dec.map fun d => (d.1,d.2 ++ frame.toList) }) with
      serving := conn :: s.serving })
  | .served conn,s => ((),{ s with serving := s.serving.filter (· ≠ conn) })
  | .disconnect conn,s =>
    ((),{ s with links := s.links.erase conn,serving := s.serving.filter (· ≠ conn) })
  | .offerKey conn secret,s => ((),s.relink conn fun link => { link with offer := secret })
  | .secure conn key,s =>
    ((),s.relink conn fun link => { link with sink := link.sink.map (encrypted key),offer := none,dec := some (key,[]) })
  | .readSink conn,s => ((s.links.lookup conn).bind Link.sink,s)
  | .takeSink conn,s => ((s.links.lookup conn).bind Link.sink,s.relink conn fun link => { link with sink := none })
  | .punchInsert addr sink,s => ((),{ s with tcpPunch := s.tcpPunch.insert addr sink })
  | .punchRemove addr,s => (s.tcpPunch.lookup addr,{ s with tcpPunch := s.tcpPunch.erase addr })
  | .peersInsert addr sink,s => ((),{ s with tcpPeers := s.tcpPeers.insert addr sink })
  | .peersTake addr,s =>
    match s.tcpPeers.lookup addr with
    | some sink => (some sink,{ s with tcpPeers := s.tcpPeers.insert addr .closed })
    | none => (none,s)
  | .peersPutBack addr sink,s =>
    ((),if s.tcpPeers.lookup addr = some .closed then { s with tcpPeers := s.tcpPeers.insert addr sink } else s)
  | .peersContains addr,s => ((s.tcpPeers.lookup addr).isSome,s)
  | .peersRemove addr,s => ((),{ s with tcpPeers := s.tcpPeers.erase addr })
  | .remember key token,s =>
    let now := s.registry.now
    let kept := retain (fun entry => decide (now - entry.2 < ttl)) s.punchSessions
    ((),{ s with punchSessions := kept.insert key (token,now) })
  | .tokenFor key,s =>
    let now := s.registry.now
    (((s.punchSessions.lookup key).filter fun entry => decide (now - entry.2 < ttl)).map Prod.fst,s)
  | .recordPunch fromIp toIp toId,s =>
    let now := s.registry.now
    ((),if duplicate now fromIp toId s.punchReqs then s
      else { s with punchReqs := s.punchReqs ++ [⟨now,fromIp,toIp,toId⟩] })
  | .clearPunchReqs,s => ((),{ s with punchReqs := [] })
  | .trimBlocker forget,s =>
    ((),{ s with registry := { s.registry with ipBlocker := trimBlocker s.registry.now forget s.registry.ipBlocker } })
  | .trimChanges forget,s =>
    ((),{ s with registry := { s.registry with ipChanges := trimChanges s.registry.now forget s.registry.ipChanges } })
  | .readAlwaysUseRelay,s => (s.alwaysUseRelay,s)
  | .setAlwaysUseRelay on,s => ((),{ s with alwaysUseRelay := on })
  | .rotate,s => (s.rotation,{ s with rotation := s.rotation + 1 })
  | .enqueue d,s => ((),{ s with queue := s.queue ++ [d] })
  | .dequeue,s => (s.queue.head?,{ s with queue := s.queue.tail })
  | .send _ _,s => ((),s)

end Semantics

/- One turn of the main loop at a time, one message of a connection at a time; every accepted
connection is a new one. -/
def ready : Op → Server → Bool
  | .loopTurn,s => !s.looping
  | .connect conn _,s => decide (conn ∉ s.accepted)
  | .receive conn _,s => (s.links.lookup conn).isSome && decide (conn ∉ s.serving)
  | _,_ => true

def act (o : Op) : Prog Op Resp (Resp o) := perform o

def account {α : Type} (p : Prog AccountStore.Op AccountStore.Resp α) : Prog Op Resp α :=
  p.embed .account fun _ r => r

def registry {α : Type} (p : Prog PeerRegistry.Op PeerRegistry.Resp α) : Prog Op Resp α :=
  p.embed .registry fun _ r => r

/- What the world contributes to the handling of one message: random strings, failing
database calls, an account database that cannot be opened. -/
structure Draws where
  minted : Minted
  newGuid : Bytes
  out : Outage
  unavailable : Bool
  deriving DecidableEq

section Handlers
variable (lib : Library)

def authorized (token : String) (draws : Draws) : Prog Op Resp Bool := do
  if draws.unavailable then return false
  let found : Except AccountStore.Error (Option String) ← account (AccountStore.user lib.prim token).run
  match found with
  | .ok (some _) => return true
  | _ => return false

def peerTicket (sessionToken uuid : String) (draws : Draws) : Prog Op Resp (Option String) := do
  if draws.unavailable then return none
  let made : Except AccountStore.Error (Option String) ←
    account (AccountStore.ticket lib.prim sessionToken uuid draws.minted).run
  match made with
  | .ok (some ticket) => return some ticket
  | _ => return none

def PunchSessions.remember (controller : SocketAddr) (targetId token : String) : Prog Op Resp Unit :=
  act (.remember (lib.tryIntoV4 controller,targetId) token)

def PunchSessions.tokenFor (controller : SocketAddr) (targetId : String) : Prog Op Resp (Option String) :=
  act (.tokenFor (lib.tryIntoV4 controller,targetId))

def sendToSink (sink : Option Sink) (msg : Message) : Prog Op Resp Unit :=
  match sink with
  | some .closed | none => return ()
  | some live => act (.send (.sink live) msg)

def sendToTcpPeer (addr : SocketAddr) (msg : Message) : Prog Op Resp Bool := do
  let key := lib.tryIntoV4 addr
  let taken : Option Sink ← act (.peersTake key)
  match taken with
  | none => return false
  | some .closed => return true
  | some sink =>
    sendToSink (some sink) msg
    act (.peersPutBack key sink)
    return true

def replyOnConnection (conn : Conn) (msg : Message) : Prog Op Resp Unit := do
  let sink : Option Sink ← act (.readSink conn)
  if sink.isSome then sendToSink sink msg
  else
    let _ ← sendToTcpPeer lib conn.addr msg

/- `send_to_tcp` and `send_to_tcp_sync` differ only in who waits for the send. -/
def sendToTcp (msg : Message) (addr : SocketAddr) : Prog Op Resp Unit := do
  let tcp : Option Sink ← act (.punchRemove (lib.tryIntoV4 addr))
  if tcp.isNone then
    let _ ← sendToTcpPeer lib addr msg
  else sendToSink tcp msg

def deliver (msg : Message) (addr : SocketAddr) : Prog Op Resp Unit := do
  let delivered ← sendToTcpPeer lib addr msg
  if !delivered then act (.send (.udp addr) msg)

def isTcpPeer (addr : SocketAddr) : Prog Op Resp Bool := act (.peersContains (lib.tryIntoV4 addr))

def getRelayServer (config : Config) : Prog Op Resp String := do
  match config.relayServers with
  | [] => return ""
  | [server] => return server
  | servers =>
    let i : Nat ← act .rotate
    return servers.getD (i % servers.length) ""

def getPk (config : Config) (version id : String) (draws : Draws) : Prog Op Resp Bytes := do
  match config.inner.sk with
  | none => return []
  | some sk =>
    if version.isEmpty then return []
    let peer ← registry (PeerRegistry.PeerMap.get id draws.out.getPeer)
    match peer with
    | some peer =>
      let p ← registry (PeerRegistry.act (.peerRead peer))
      return lib.sign sk id p.pk
    | none => return []

def handlePunchHoleRequest (config : Config) (key : String) (conn : Conn) (ph : PunchHoleRequest) (draws : Draws) :
    Prog Op Resp (Message × Option SocketAddr) := do
  if !key.isEmpty ∧ ph.licenceKey ≠ key then return (refusal .licenseMismatch,none)
  let peer ← registry (PeerRegistry.PeerMap.get ph.id draws.out.getPeer)
  match peer with
  | none => return (refusal .idNotExist,none)
  | some peer =>
    let (elapsed,peerAddr) ← (act (.lastSeen peer) : Prog Op Resp (Nat × SocketAddr))
    if 30000 ≤ elapsed then return (refusal .offline,none)
    act (.recordPunch (lib.tryIntoV4 conn.addr).ip.text (lib.tryIntoV4 peerAddr).ip.text ph.id)
    let peerIsLan := config.isLan peerAddr
    let isLan := config.isLan conn.addr
    let relayServer ← getRelayServer config
    let always : Bool ← act .readAlwaysUseRelay
    let forced := always || (peerIsLan ^^ isLan)
    let relayServer := if forced && peerIsLan then config.inner.localIp else relayServer
    let natType : NatType := if forced then .symmetric else ph.natType
    let sameIntranet := !conn.ws && (peerIsLan && isLan || sameFamilyIp peerAddr conn.addr)
    let socketAddr := lib.encode conn.addr
    if sameIntranet then return (.fetchLocalAddr ⟨socketAddr,relayServer⟩,some peerAddr)
    else return (.punchHole ⟨socketAddr,relayServer,natType⟩,some peerAddr)

def handleTcpPunchHoleRequest (config : Config) (key : String) (conn : Conn) (ph : PunchHoleRequest) (draws : Draws) :
    Prog Op Resp Unit := do
  let (msg,toAddr) ← handlePunchHoleRequest lib config key conn ph draws
  match toAddr with
  | some addr => act (.enqueue (.msg msg addr))
  | none => sendToTcp lib msg conn.addr

def handleHoleSent (config : Config) (phs : PunchHoleSent) (addr : SocketAddr) (draws : Draws) : Prog Op Resp Unit := do
  let addrA := lib.decode phs.socketAddr
  let pk ← getPk lib config phs.version phs.id draws
  let p : PunchHoleResponse := {
    socketAddr := lib.encode addr
    pk := pk
    relayServer := phs.relayServer
    union := phs.natType.enumValue.map .natType }
  sendToTcp lib (.punchHoleResponse p) addrA

def handleLocalAddr (config : Config) (la : LocalAddr) (draws : Draws) : Prog Op Resp Unit := do
  let addrA := lib.decode la.socketAddr
  let pk ← getPk lib config la.version la.id draws
  let p : PunchHoleResponse := {
    socketAddr := la.localAddr
    pk := pk
    relayServer := la.relayServer
    union := some (.isLocal true) }
  sendToTcp lib (.punchHoleResponse p) addrA

/- Registration adopts the sink of the connection. -/
def adoptSink (conn : Conn) : Prog Op Resp Unit := do
  let sink : Option Sink ← act (.takeSink conn)
  if let some sink := sink then act (.peersInsert (lib.tryIntoV4 conn.addr) sink)

def handleTcpRegisterPeer (config : Config) (rp : RegisterPeer) (conn : Conn) : Prog Op Resp Unit := do
  if rp.id.isEmpty then return ()
  adoptSink lib conn
  let requestPk ← registry (PeerRegistry.registerPeerResponse rp.id conn.addr)
  let _ ← sendToTcpPeer lib conn.addr (.registerPeerResponse requestPk)
  if rp.serial < config.inner.serial then
    let _ ← sendToTcpPeer lib conn.addr (.configureUpdate (configUpdate config))

def handleTcpRegisterPk (rk : PeerRegistry.RegisterPk) (conn : Conn) (draws : Draws) : Prog Op Resp Unit := do
  if rk.uuid.isEmpty || rk.pk.isEmpty then return ()
  adoptSink lib conn
  let res ← registry (PeerRegistry.registerPkResult rk conn.addr draws.newGuid draws.out)
  let _ ← sendToTcpPeer lib conn.addr (.registerPkResponse res)

def answerPeerInitiatedRelay (rr : RelayResponse) (controller : SocketAddr) (conn : Conn) (draws : Draws) :
    Prog Op Resp Unit := do
  if rr.uuid.isEmpty then return ()
  let token ← PunchSessions.tokenFor lib controller rr.id
  match token with
  | none => return ()
  | some token =>
    let ticket ← peerTicket lib token rr.uuid draws
    match ticket with
    | none => return ()
    | some ticket => replyOnConnection lib conn (.requestRelay { uuid := rr.uuid,token := ticket })

/- The three arms of `handle_tcp` that have to do with relays and hole punching. -/
def handlePunchArm (config : Config) (key : String) (conn : Conn) (ph : PunchHoleRequest) (draws : Draws) :
    Prog Op Resp Bool := do
  let allowed ← authorized lib ph.token draws
  if !allowed then return false
  let sink : Option Sink ← act (.takeSink conn)
  if let some sink := sink then act (.punchInsert (lib.tryIntoV4 conn.addr) sink)
  PunchSessions.remember lib conn.addr ph.id ph.token
  handleTcpPunchHoleRequest lib config key conn ph draws
  return true

def handleRelayArm (conn : Conn) (rf : RequestRelay) (draws : Draws) : Prog Op Resp Bool := do
  let allowed ← authorized lib rf.token draws
  if !allowed then return false
  let ticket ← peerTicket lib rf.token rf.uuid draws
  let rf := { rf with token := ticket.getD "" }
  let sink : Option Sink ← act (.takeSink conn)
  if let some sink := sink then act (.punchInsert (lib.tryIntoV4 conn.addr) sink)
  let peer ← registry (PeerRegistry.act (.mapRead rf.id))
  if let some peer := peer then
    let p ← registry (PeerRegistry.act (.peerRead peer))
    act (.enqueue (.msg (.requestRelay { rf with socketAddr := lib.encode conn.addr }) p.socketAddr))
  return true

/- The key of the peer in place of its id. -/
def withPk (config : Config) (rr : RelayResponse) (draws : Draws) : Prog Op Resp RelayResponse := do
  if rr.id.isEmpty then return rr
  let pk ← getPk lib config rr.version rr.id draws
  return { rr with union := some (.pk pk) }

def relayServerFor (config : Config) (rr : RelayResponse) (addrB : SocketAddr) : Prog Op Resp String :=
  if rr.relayServer.isEmpty then return rr.relayServer
  else if config.isLan addrB then return config.inner.localIp
  else if rr.relayServer = config.inner.localIp then getRelayServer config
  else return rr.relayServer

def handleResponseArm (config : Config) (conn : Conn) (rr : RelayResponse) (draws : Draws) : Prog Op Resp Unit := do
  let addrB := lib.decode rr.socketAddr
  answerPeerInitiatedRelay lib rr addrB conn draws
  let rr ← withPk lib config { rr with socketAddr := [] } draws
  let relayServer ← relayServerFor config rr addrB
  sendToTcp lib (.relayResponse { rr with relayServer := relayServer }) addrB

def handleTcp (config : Config) (key : String) (conn : Conn) (bytes : Bytes) (draws : Draws) :
    Prog Op Resp Bool := do
  match lib.parse bytes with
  | some (.punchHoleRequest ph) => handlePunchArm lib config key conn ph draws
  | some (.requestRelay rf) => handleRelayArm lib conn rf draws
  | some (.relayResponse rr) =>
    handleResponseArm lib config conn rr draws
    isTcpPeer lib conn.addr
  | some (.punchHoleSent phs) =>
    handleHoleSent lib config phs conn.addr draws
    isTcpPeer lib conn.addr
  | some (.localAddr la) =>
    handleLocalAddr lib config la draws
    isTcpPeer lib conn.addr
  | some (.testNatRequest serial) =>
    replyOnConnection lib conn (testNatResponse config serial conn.addr)
    isTcpPeer lib conn.addr
  | some (.registerPeer rp) =>
    handleTcpRegisterPeer lib config rp conn
    return true
  | some (.registerPk rk) =>
    handleTcpRegisterPk lib rk conn draws
    return true
  | _ => isTcpPeer lib conn.addr

def handleUdp (config : Config) (addr : SocketAddr) (bytes : Bytes) (draws : Draws) : Prog Op Resp Unit := do
  match lib.parse bytes with
  | some (.registerPeer rp) =>
    if !rp.id.isEmpty then
      let requestPk ← registry (PeerRegistry.registerPeerResponse rp.id addr)
      act (.send (.udp addr) (.registerPeerResponse requestPk))
      if rp.serial < config.inner.serial then
        act (.send (.udp addr) (.configureUpdate (configUpdate config)))
  | some (.registerPk rk) =>
    if rk.uuid.isEmpty || rk.pk.isEmpty then return ()
    let res ← registry (PeerRegistry.registerPkResult rk addr draws.newGuid draws.out)
    act (.send (.udp addr) (.registerPkResponse res))
  | some (.testNatRequest serial) => act (.send (.udp addr) (testNatResponse config serial addr))
  -- hole punching is refused over UDP: PunchHoleRequest, PunchHoleSent and LocalAddr are ignored
  | some (.configureUpdate cu) =>
    if (lib.tryIntoV4 addr).ip.isLoopback ∧ config.inner.serial < cu.serial then
      act (.setConfig { config with
        inner := { config.inner with serial := cu.serial }
        rendezvousServers := cu.rendezvousServers.filter fun x => !x.isEmpty && lib.validServer x })
  | some (.softwareUpdate url) =>
    if !config.inner.version.isEmpty ∧ url ≠ config.inner.version then
      act (.send (.udp addr) (.softwareUpdate config.inner.softwareUrl))
  | _ => return ()

def onlineList : List String → Prog Op Resp (List Bool)
  | [] => return []
  | id :: rest => do
    let peer ← registry (PeerRegistry.act (.mapRead id))
    let online ← match peer with
      | some peer => do
        let (elapsed,_) ← (act (.lastSeen peer) : Prog Op Resp (Nat × SocketAddr))
        pure (decide (elapsed < 30000))
      | none => pure false
    let others ← onlineList rest
    return online :: others

def handleOnlineRequest (addr : SocketAddr) (peers : List String) : Prog Op Resp Unit := do
  let online ← onlineList peers
  act (.send (.stream addr) (.onlineResponse (onlineStates online)))

/- How many of the peers were last seen less than `timeout` milliseconds ago. -/
def onlineCount (timeout : Nat) : List LockPeer → Prog Op Resp Nat
  | [] => return 0
  | peer :: rest => do
    let (elapsed,_) ← (act (.lastSeen peer) : Prog Op Resp (Nat × SocketAddr))
    let others ← onlineCount timeout rest
    return if elapsed < timeout then others + 1 else others

/- The line that is logged every few ticks about how peers are connected. -/
def logPeerTransport : Prog Op Resp Unit := do
  let peers : List LockPeer ← act .listed
  let online ← onlineCount 30000 peers
  let tcp : Nat ← act .tcpPeersLen
  act (.report online tcp (online - tcp))

/- A line on the console; `display` is every line that only makes the console print something. -/
inductive Command where
  | relayServers (rs : String)
  | alwaysUseRelay (arg : String)
  | testGeo
  | ipBlocker (forget : Option String)
  | ipChanges (forget : Option String)
  | clearPunchRequests
  | display
  deriving DecidableEq

def checkCmd (config : Config) : Command → Prog Op Resp Unit
  | .relayServers rs => act (.enqueue (.relayServers0 rs))
  | .alwaysUseRelay arg => do
    act (.setAlwaysUseRelay (arg = "Y" ∨ arg = "y"))
    act (.enqueue (.relayServers0 arg))
  | .testGeo => do
    let _ ← getRelayServer config
  | .ipBlocker forget => act (.trimBlocker forget)
  | .ipChanges forget => act (.trimChanges forget)
  | .clearPunchRequests => act .clearPunchReqs
  | .display => return ()

/- The end of `handle_listener_inner`. -/
def closing (conn : Conn) : Prog Op Resp Unit := do
  let sink : Option Sink ← act (.readSink conn)
  if sink.isNone then
    let _ ← (act (.punchRemove (lib.tryIntoV4 conn.addr)) : Prog Op Resp (Option Sink))
  act (.peersRemove (lib.tryIntoV4 conn.addr))
  act (.disconnect conn)

/- `dec` and `offer` decide: a frame is decrypted once a key is agreed on, and only the first
one can be a KeyExchange. -/
def treat (link : Link) (frame : Bytes) : Treatment :=
  match link.dec with
  | some (symmetric,earlier) => match lib.decrypt symmetric earlier frame with
    | some bytes => .handle bytes
    | none => .refuse
  | none => match link.offer with
    | none => .handle frame
    | some secret => match lib.parse frame with
      | some (.keyExchange keys) => match accept lib secret keys with
        | some symmetric => .exchange symmetric
        | none => .refuse
      | _ => .handle frame

/- The read loop of `handle_listener_inner` for one frame. -/
def serve (key : String) (conn : Conn) (frame : Bytes) (draws : Draws) (link : Link) : Prog Op Resp Unit := do
  match treat lib link frame with
  | .exchange symmetric =>
    act (.secure conn symmetric)
    act (.served conn)
  | .refuse => closing lib conn
  | .handle bytes =>
    if link.offer.isSome then act (.offerKey conn none)
    let keep ← handleTcp lib link.config key conn bytes draws
    if keep then act (.served conn) else closing lib conn

inductive Call where
  | account (c : AccountCalls.Call)
  | accept (conn : Conn) (secret publicKey : Bytes)
  | tcp (conn : Conn) (frame : Bytes) (draws : Draws)
  | close (conn : Conn)
  | udp (addr : SocketAddr) (bytes : Bytes) (draws : Draws)
  | turn
  | nat (addr : SocketAddr) (bytes : Bytes)
  | console (addr : SocketAddr) (cmd : Command)
  | relayCheck (reachable : List String)
  | peerTransport
  | testHbbs (addr : SocketAddr)
  deriving DecidableEq

def turning {α : Type} (body : Config → Prog Op Resp α) : Prog Op Resp α := do
  let config : Config ← act .loopTurn
  let value ← body config
  act .loopDone
  return value

def program (key : String) : Call → Prog Op Resp Unit
  | .account c => do
    let _ ← account (AccountCalls.program lib.prim c)
  | .accept conn secret publicKey => do
    let config ← turning pure
    act (.connect conn config)
    if !conn.ws then
      if let some sk := config.inner.sk then
        act (.send (.sink (.tcpStream conn none)) (.keyExchange [lib.sign sk "" publicKey]))
        act (.offerKey conn (some secret))
    act (.served conn)
  | .tcp conn frame draws => do
    let link : Option Link ← act (.receive conn (some frame))
    match link with
    | some link => serve lib key conn frame draws link
    | none => return ()
  | .close conn => do
    let _ ← (act (.receive conn none) : Prog Op Resp (Option Link))
    closing lib conn
  | .udp addr bytes draws => turning fun config => handleUdp lib config addr bytes draws
  | .turn => turning fun config => do
    let data : Option Data ← act .dequeue
    match data with
    | some (.msg m addr) => deliver lib m addr
    | some (.relayServers0 rs) => act (.setConfig (config.parseRelayServers lib rs))
    | some (.relayServers rs) => act (.setConfig { config with relayServers := rs })
    | none => return ()
  | .nat addr bytes => do
    let _ ← turning pure
    if !(lib.tryIntoV4 addr).ip.isLoopback then
      match lib.parse bytes with
      | some (.testNatRequest _) => act (.send (.stream addr) (.testNatResponse ⟨addr.port,none⟩))
      | some (.onlineRequest peers) => handleOnlineRequest addr peers
      | _ => return ()
  | .console addr cmd => do
    let config ← turning pure
    if (lib.tryIntoV4 addr).ip.isLoopback then checkCmd config cmd
  | .relayCheck reachable => do
    let config ← turning pure
    if 1 < config.relayServers0.length then
      -- the servers are listed in the order in which they answered
      let rs := reachable.bagInter config.relayServers0
      if !rs.isEmpty then act (.enqueue (.relayServers rs))
  | .peerTransport => turning fun _ => logPeerTransport
  | .testHbbs addr => act (.send (.udp addr) (.registerPeer ⟨"(:test_hbbs:)",0⟩))

end Handlers

inductive Env where
  | tick (ns : Nat)
  | seconds (n : Nat)
  deriving DecidableEq

def Env.apply : Env → Server → Server
  | .tick ns,s => { s with registry := { s.registry with now := s.registry.now + ns } }
  | .seconds n,s => { s with accounts := { s.accounts with now := s.accounts.now + n } }

abbrev World := Pool Op Resp Call Server Unit

def machine (lib : Library) (expired : Nat → Nat) (key : String) : Machine Op Resp Call Env Server Unit where
  program := fun _ c => program lib key c
  exec := exec lib expired
  ready := ready
  env := Env.apply
  kills := fun _ => false

section Concrete

/- `try_into_v4` and AddrMangle on which runs can be computed. -/
def mappedV4 : List UInt16 → Option IpAddr
  | [0,0,0,0,0,0xffff,high,low] =>
    some (.v4 (high.toNat / 256).toUInt8 high.toUInt8 (low.toNat / 256).toUInt8 low.toUInt8)
  | _ => none

def portBytes (port : Nat) : Bytes := (Nat.digits 256 port).map Nat.toUInt8

def halves (g : UInt16) : Bytes := [(g.toNat / 256).toUInt8,g.toUInt8]

def whole (high low : UInt8) : UInt16 := (high.toNat * 256 + low.toNat).toUInt16

def plainEncode (addr : SocketAddr) : Bytes :=
  match addr.ip with
  | .v4 a b c d => 4 :: a :: b :: c :: d :: portBytes addr.port
  | .v6 segments => 6 :: segments.list.flatMap halves ++ portBytes addr.port

def plainDecode : Bytes → SocketAddr
  | 4 :: a :: b :: c :: d :: rest => ⟨.v4 a b c d,Nat.ofDigits 256 (rest.map UInt8.toNat)⟩
  | 6 :: a :: b :: c :: d :: e :: f :: g :: h :: i :: j :: k :: l :: m :: n :: o :: p :: rest =>
    ⟨.v6 ⟨[whole a b,whole c d,whole e f,whole g h,whole i j,whole k l,whole m n,whole o p],rfl⟩,
      Nat.ofDigits 256 (rest.map UInt8.toNat)⟩
  | _ => PeerRegistry.unset

theorem portBack (port : Nat) : Nat.ofDigits 256 ((portBytes port).map UInt8.toNat) = port := by
  have same : (portBytes port).map UInt8.toNat = Nat.digits 256 port := by
    unfold portBytes
    rw [List.map_map]
    refine (List.map_congr_left fun digit member => ?_).trans (List.map_id _)
    have less : digit < 256 := Nat.digits_lt_base (by decide) member
    simpa using Nat.mod_eq_of_lt less
  rw [same,Nat.ofDigits_digits]

theorem wholeHalves (g : UInt16) : whole (g.toNat / 256).toUInt8 g.toUInt8 = g := by
  apply UInt16.toNat_inj.mp
  have := g.toNat_lt
  simp [whole]
  omega

def plainV4 (addr : SocketAddr) : SocketAddr :=
  match addr.ip with
  | .v4 _ _ _ _ => addr
  | .v6 segments => ⟨(mappedV4 segments.list).getD addr.ip,addr.port⟩

theorem plainDecodes (addr : SocketAddr) : plainDecode (plainEncode addr) = addr := by
  obtain ⟨ip,port⟩ := addr
  cases ip with
  | v4 a b c d =>
    show (⟨.v4 a b c d,Nat.ofDigits 256 ((portBytes port).map UInt8.toNat)⟩ : SocketAddr) = _
    rw [portBack]
  | v6 segments =>
    obtain ⟨list,eight⟩ := segments
    match list,eight with
    | [a,b,c,d,e,f,g,h],_ =>
      show (⟨.v6 ⟨[whole _ _,whole _ _,whole _ _,whole _ _,whole _ _,whole _ _,whole _ _,whole _ _],rfl⟩,
        Nat.ofDigits 256 ((portBytes port).map UInt8.toNat)⟩ : SocketAddr) = _
      simp only [portBack,wholeHalves]

example : plainV4 ⟨.v6 ⟨[0,0,0,0,0,0xffff,0xc633,0x6402],rfl⟩,4000⟩ = ⟨.v4 198 51 100 2,4000⟩ := by decide

def dropKey : Bytes → Bytes → Option Bytes
  | [],frame => some frame
  | k :: key,b :: frame => if k = b then dropKey key frame else none
  | _,[] => none

/- Library functions on which runs can be computed: an encrypted frame shows its key first. -/
def plainLibrary (parse : Bytes → Option Message) : Library where
  tryIntoV4 := plainV4
  encode := plainEncode
  decode := plainDecode
  parse := parse
  sign := fun _ _ pk => pk
  openBox := fun _ _ sealed => some sealed
  decrypt := fun key _ frame => dropKey key frame
  validServer := fun _ => true
  prim := AccountCalls.plain

theorem plainUndoes (parse : Bytes → Option Message) : (plainLibrary parse).Undoes :=
  fun addr => congrArg plainV4 (plainDecodes addr)

def advances (i n : Nat) : List (Act Call Env) := List.replicate n (.advance i)

def controllerToken : Minted := AccountCalls.mintedA

def calm (ticket : Minted) : Draws := ⟨ticket,[7],.none,false⟩

/- An account store in which the controller is logged in. -/
def signedIn : Store :=
  let call := fun (c : AccountCalls.Call) (s : Store) =>
    ((AccountCalls.program AccountCalls.plain c).run (AccountStore.exec AccountCalls.plain) s).2
  call (.login "controller" "test-only-long-password" controllerToken)
    (call (.createUser "controller" "test-only-long-password" "salt") (.init 100))

def oneServer : Config := ⟨⟨0,"","",none,"",none⟩,[],[],[]⟩

def bootInstant : Nat := 7200000000000

def hourAgo (now : Nat) : Nat := now - 3600000000000

end Concrete
end OpenuuServer.RendezvousServer
