import OpenuuServer.RendezvousPrograms

/-! The pointers to peers that hbbs keeps in memory. Every handler takes its pointer from
PeerMap and uses it later, with other handlers in between. `PeerMap::get` inserts what it
loaded without looking at the map again; apart from that an entry is never replaced. -/
namespace OpenuuServer.PeerPointers
open AtomicProgram RendezvousMessages RendezvousServer RendezvousPrograms
open PeerRegistry (Bytes SocketAddr LockPeer Registry Outage)

/- The peers that an operation reads or writes. -/
def used : Op → List LockPeer
  | .registry (.peerRead peer) | .registry (.regPkRead peer) | .registry (.regPkWrite peer _)
  | .registry (.peerUpdate peer _ _ _ _) | .registry (.guidWrite peer _) | .registry (.peerRefresh peer _)
  | .lastSeen peer => [peer]
  | _ => []

/- The pointers that an operation took from the map. -/
def taken : Did Op Resp → List LockPeer
  | ⟨.registry (.mapRead _),found⟩ => Option.toList found
  | ⟨.registry (.insertLoaded _ _),peer⟩ => [peer]
  | ⟨.registry (.getOrInsert _),peer⟩ => [peer]
  | ⟨.listed,peers⟩ => peers
  | _ => []

/- The id for which an operation inserts a peer loaded from the table. -/
def loads : Op → Option String
  | .registry (.insertLoaded _ id) => some id
  | _ => none

/- The id that an operation did not find in the map. -/
def missed : Did Op Resp → Option String
  | ⟨.registry (.mapRead id),none⟩ => some id
  | _ => none

section Programs

def Taken (done : List (Did Op Resp)) (peer : LockPeer) : Prop := ∃ d ∈ done, peer ∈ taken d

def Pointed (done : List (Did Op Resp)) (o : Op) : Prop :=
  (∀ peer ∈ used o, Taken done peer) ∧ ∀ id ∈ loads o, ∃ d ∈ done, missed d = some id

/- A program that takes every pointer it uses and misses every id it loads. -/
def Sound {α : Type} (p : Prog Op Resp α) : Prop := ∀ done, p.EveryAfter Pointed done

def Bare (o : Op) : Prop := ((used o).isEmpty && (loads o).isNone) = true

variable {α β : Type} {lib : Library} {config : Config} {key : String} {conn : Conn} {draws : Draws}

theorem takenAppend {done peer} (given : Taken done peer) (later : List (Did Op Resp)) : Taken (done ++ later) peer := by
  obtain ⟨d,member,same⟩ := given
  exact ⟨d,List.mem_append_left _ member,same⟩

theorem takenLast {done peer} {d : Did Op Resp} (same : peer ∈ taken d) : Taken (done ++ [d]) peer :=
  ⟨d,by simp,same⟩

theorem barePointed {done o} (bare : Bare o) : Pointed done o := by
  obtain ⟨unused,unloaded⟩ := Bool.and_eq_true_iff.mp bare
  rw [List.isEmpty_iff] at unused
  rw [Option.isNone_iff_eq_none] at unloaded
  refine ⟨fun peer member => ?_,fun id member => ?_⟩
  · rw [unused] at member
    cases member
  · rw [unloaded] at member
    cases member

theorem soundBare {p : Prog Op Resp α} (bare : p.Every Bare) : Sound p :=
  everyAfterOfEvery (fun _ _ => barePointed) bare

theorem soundBind {p : Prog Op Resp α} {k : α → Prog Op Resp β} (first : Sound p) (second : ∀ value, Sound (k value)) :
    Sound (p >>= k) := fun done => everyAfterBind (first done) fun value _ => second value _

theorem soundRet (value : α) : Sound (.ret value : Prog Op Resp α) := fun _ => trivial

theorem soundIte {c : Prop} [Decidable c] {x y : Prog Op Resp α} (left : Sound x) (right : Sound y) :
    Sound (if c then x else y) := by
  split
  · exact left
  · exact right

/- A lookup on behalf of a handler, and what the handler does with the pointer. -/
theorem getTakes {id : String} {fails : Bool} {done} :
    (registry (PeerRegistry.PeerMap.get id fails)).Ends
      (fun done found => ∀ peer, found = some peer → Taken done peer) done := by
  unfold registry PeerRegistry.PeerMap.get PeerRegistry.act
  simp only [performIs,bindOp,bindRet,embedOp,endsOp]
  intro found
  cases found with
  | some ref =>
    intro peer same
    exact takenLast (Option.mem_toList.mpr same)
  | none =>
    intro loaded
    cases loaded with
    | error e => intro peer same; cases same
    | ok row =>
      cases row with
      | none => intro peer same; cases same
      | some row =>
        intro ref peer same
        cases Option.some.inj same
        exact takenLast (.head _)

theorem soundLookup (id : String) (fails : Bool) : Sound (registry (PeerRegistry.PeerMap.get id fails)) := by
  intro done
  unfold registry PeerRegistry.PeerMap.get PeerRegistry.act
  simp only [performIs,bindOp,bindRet,embedOp,everyAfterOp]
  refine ⟨barePointed rfl,fun found => ?_⟩
  cases found with
  | some ref => trivial
  | none =>
    refine ⟨barePointed rfl,fun loaded => ?_⟩
    cases loaded with
    | error e => trivial
    | ok row =>
      cases row with
      | none => trivial
      | some row =>
        refine ⟨⟨fun peer member => absurd member List.not_mem_nil,fun id' member => ?_⟩,fun _ => trivial⟩
        cases Option.some.inj (Option.mem_def.mp member)
        exact ⟨⟨.registry (.mapRead id),none⟩,by simp,rfl⟩

theorem soundGet {id : String} {fails : Bool} {k : Option LockPeer → Prog Op Resp β} (absent : Sound (k none))
    (present : ∀ peer done, Taken done peer → (k (some peer)).EveryAfter Pointed done) :
    Sound (registry (PeerRegistry.PeerMap.get id fails) >>= k) := by
  intro done
  refine everyAfterBindEnds (soundLookup id fails done) (endsMono (fun later found given => ?_) getTakes)
  cases found with
  | none => exact absent later
  | some peer => exact present peer later (given peer rfl)

/- The same for a lookup in memory only. -/
theorem soundMapRead {id : String} {k : Option LockPeer → Prog Op Resp β} (absent : Sound (k none))
    (present : ∀ peer done, Taken done peer → (k (some peer)).EveryAfter Pointed done) :
    Sound (registry (PeerRegistry.act (.mapRead id)) >>= k) := by
  intro done
  refine ⟨barePointed rfl,fun found => ?_⟩
  cases found with
  | none => exact absent _
  | some peer => exact present peer _ (takenLast (.head _))

theorem usedOnce {o : Op} {next : Resp o → Prog Op Resp β} {done peer} (given : Taken done peer)
    (only : used o = [peer] ∧ loads o = none) (rest : ∀ r, (next r).EveryAfter Pointed (done ++ [⟨o,r⟩])) :
      (Prog.op o next).EveryAfter Pointed done := by
  refine ⟨⟨fun other member => ?_,fun id member => ?_⟩,rest⟩
  · rw [only.1] at member
    cases List.mem_singleton.mp member
    exact given
  · rw [only.2] at member
    cases member

theorem soundGetPk (version id : String) : Sound (getPk lib config version id draws) := by
  unfold getPk
  split
  · exact soundRet _
  · refine soundIte (soundRet _) (soundGet (soundRet _) fun peer done given => ?_)
    exact usedOnce given ⟨rfl,rfl⟩ fun _ => trivial

theorem soundSendToTcp (msg : Message) (addr : SocketAddr) : Sound (sendToTcp lib msg addr) :=
  soundBare (everySendToTcp (fun _ => rfl) (fun _ => rfl) (fun _ => rfl) fun _ _ => rfl)

theorem soundSendToTcpPeer (addr : SocketAddr) (msg : Message) : Sound (sendToTcpPeer lib addr msg) :=
  soundBare (everySendToTcpPeer (fun _ => rfl) (fun _ => rfl) fun _ _ => rfl)

theorem soundReply (msg : Message) : Sound (replyOnConnection lib conn msg) :=
  soundBare (everyReplyOnConnection rfl (fun _ => rfl) (fun _ => rfl) fun _ _ => rfl)

theorem soundOp {o : Op} {next : Resp o → Prog Op Resp β} (bare : Bare o) (rest : ∀ r, Sound (next r)) :
    Sound (.op o next) := fun _ => ⟨barePointed bare,fun r => rest r _⟩

theorem soundRegisterPeerResponse (id : String) (addr : SocketAddr) :
    Sound (registry (PeerRegistry.registerPeerResponse id addr)) := by
  intro done
  unfold registry PeerRegistry.registerPeerResponse PeerRegistry.act
  simp only [performIs,bindOp,bindRet,embedOp,everyAfterOp]
  refine ⟨barePointed rfl,fun old => ?_⟩
  cases old with
  | none => trivial
  | some ref => exact usedOnce (takenLast (.head _)) ⟨rfl,rfl⟩ fun _ => trivial

theorem updatePkPointed {id : String} {peer : LockPeer} {addr : SocketAddr} {uuid pk newGuid : Bytes} {ip : String}
    {out : Outage} {done} (given : Taken done peer) :
    (registry (PeerRegistry.PeerMap.updatePk id peer addr uuid pk ip newGuid out)).EveryAfter Pointed done := by
  unfold registry PeerRegistry.PeerMap.updatePk PeerRegistry.act
  simp only [performIs,bindOp,bindRet,embedOp,embedIte]
  refine usedOnce given ⟨rfl,rfl⟩ fun r => ?_
  rw [everyAfterIte]
  refine ⟨fun _ => ⟨barePointed rfl,fun inserted => ?_⟩,fun _ => ⟨barePointed rfl,fun updated => ?_⟩⟩
  · cases inserted with
    | error e => trivial
    | ok guid => exact usedOnce (takenAppend (takenAppend given _) _) ⟨rfl,rfl⟩ fun _ => trivial
  · cases updated <;> trivial

theorem registerAtPointed {rk : PeerRegistry.RegisterPk} {addr : SocketAddr} {newGuid : Bytes} {out : Outage}
    {peer : LockPeer} {done} (given : Taken done peer) :
    (registry (PeerRegistry.registerAt rk addr newGuid out peer)).EveryAfter Pointed done := by
  have store : ∀ {done'}, Taken done' peer → (registry (PeerRegistry.PeerMap.updatePk rk.id peer addr rk.uuid rk.pk
      addr.ip.text newGuid out) >>= fun _ => (.ret .ok : Prog Op Resp PeerRegistry.Result)).EveryAfter Pointed done' :=
    fun given => everyAfterBind (updatePkPointed given) fun _ _ => trivial
  unfold registry PeerRegistry.registerAt PeerRegistry.act
  simp only [performIs,bindOp,bindRet,embedOp]
  refine usedOnce given ⟨rfl,rfl⟩ fun stored => ?_
  cases PeerRegistry.checkPeer stored rk addr.ip.text with
  | none => trivial
  | some verdict =>
    obtain ⟨changed,ipChanged⟩ := verdict
    have again := takenAppend given [⟨.registry (.peerRead peer),stored⟩]
    refine usedOnce again ⟨rfl,rfl⟩ fun r => ?_
    dsimp only
    cases PeerRegistry.countPk r.1 r.2 with
    | none => trivial
    | some regPk =>
      simp only [embedIte,embedOp,embedBind,pureIsRet,embedRet]
      refine usedOnce (takenAppend again _) ⟨rfl,rfl⟩ fun _ => ?_
      have still := takenAppend (takenAppend again [⟨.registry (.regPkRead peer),r⟩])
        [⟨.registry (.regPkWrite peer regPk),()⟩]
      rw [everyAfterIte]
      refine ⟨fun _ => ⟨barePointed rfl,fun _ => ?_⟩,fun _ => ?_⟩
      · rw [everyAfterIte]
        exact ⟨fun _ => store (takenAppend still _),fun _ => trivial⟩
      · rw [everyAfterIte]
        exact ⟨fun _ => store still,fun _ => trivial⟩

theorem registryBind {α β : Type} (p : Prog PeerRegistry.Op PeerRegistry.Resp α)
    (k : α → Prog PeerRegistry.Op PeerRegistry.Resp β) :
    registry (p >>= k) = registry p >>= fun value => registry (k value) := embedBind p k

theorem soundRegisterPkResult (rk : PeerRegistry.RegisterPk) (addr : SocketAddr) (newGuid : Bytes) (out : Outage) :
    Sound (registry (PeerRegistry.registerPkResult rk addr newGuid out)) := by
  have rest : ∀ {k : LockPeer → Prog Op Resp PeerRegistry.Result},
      (∀ peer done, Taken done peer → (k peer).EveryAfter Pointed done) →
      Sound (registry (PeerRegistry.PeerMap.getOr rk.id out.getPeer) >>= k) := by
    intro k present
    have insert : Sound (registry (PeerRegistry.act (.getOrInsert rk.id)) >>= k) :=
      fun done => ⟨barePointed rfl,fun peer => present peer _ (takenLast (.head _))⟩
    unfold PeerRegistry.PeerMap.getOr
    rw [registryBind,bindAssoc]
    exact soundGet insert present
  unfold PeerRegistry.registerPkResult
  intro done
  unfold registry PeerRegistry.act
  simp only [performIs,bindOp,bindRet,embedIte,embedOp,embedBind,pureIsRet,embedRet,everyAfterIte]
  refine ⟨fun _ => trivial,fun _ => ⟨barePointed rfl,fun allowed => ?_⟩⟩
  rw [everyAfterIte]
  exact ⟨fun _ => trivial,fun _ => rest (fun peer done given => registerAtPointed given) _⟩

theorem soundHandlePunchHoleRequest (ph : PunchHoleRequest) :
    Sound (handlePunchHoleRequest lib config key conn ph draws) := by
  have rest : Sound (getRelayServer config) := soundBare (everyGetRelayServer rfl)
  unfold handlePunchHoleRequest act
  simp only [performIs,bindOp,bindRet]
  refine soundIte (soundRet _) (soundGet (soundRet _) fun peer done given => ?_)
  refine usedOnce given ⟨rfl,rfl⟩ fun r => ?_
  rw [everyAfterIte]
  refine ⟨fun _ => trivial,fun _ => soundOp (o := .recordPunch _ _ _) rfl (fun _ => soundBind rest fun _ => ?_) _⟩
  exact soundOp rfl fun _ => soundIte (soundRet _) (soundRet _)

theorem soundAct (o : Op) (bare : Bare o) : Sound (act o) := soundOp bare fun _ => soundRet _

theorem soundAuthorized (token : String) : Sound (authorized lib token draws) := soundBare (everyAuthorized (fun _ => rfl) token)

theorem soundPeerTicket (token uuid : String) : Sound (peerTicket lib token uuid draws) :=
  soundBare (everyPeerTicket (fun _ => rfl) token uuid)

theorem soundPunchArm (ph : PunchHoleRequest) : Sound (handlePunchArm lib config key conn ph draws) := by
  have request : Sound (handleTcpPunchHoleRequest lib config key conn ph draws) := by
    unfold handleTcpPunchHoleRequest
    refine soundBind (soundHandlePunchHoleRequest ph) fun made => ?_
    obtain ⟨msg,toAddr⟩ := made
    cases toAddr with
    | none => exact soundSendToTcp _ _
    | some addr => exact soundAct _ rfl
  have rest : Sound (PunchSessions.remember lib conn.addr ph.id ph.token >>= fun _ =>
      handleTcpPunchHoleRequest lib config key conn ph draws >>= fun _ => (.ret true : Prog Op Resp Bool)) :=
    soundBind (soundAct _ rfl) fun _ => soundBind request fun _ => soundRet _
  unfold handlePunchArm
  refine soundBind (soundAuthorized _) fun allowed => soundIte (soundRet _) (soundOp rfl fun sink => ?_)
  cases (sink : Option Sink) with
  | none => exact rest
  | some sink => exact soundOp rfl fun _ => rest

theorem soundRelayArm (rf : RequestRelay) : Sound (handleRelayArm lib conn rf draws) := by
  unfold handleRelayArm
  refine soundBind (soundAuthorized _) fun allowed => soundIte (soundRet _) ?_
  refine soundBind (soundPeerTicket _ _) fun ticket => ?_
  refine soundOp rfl fun sink => ?_
  cases (sink : Option Sink) with
  | none =>
    refine soundMapRead (soundRet _) fun peer done given => usedOnce given ⟨rfl,rfl⟩ fun p => ?_
    exact ⟨barePointed rfl,fun _ => trivial⟩
  | some sink =>
    refine soundOp rfl fun _ => soundMapRead (soundRet _) fun peer done given => usedOnce given ⟨rfl,rfl⟩ fun p => ?_
    exact ⟨barePointed rfl,fun _ => trivial⟩

theorem soundResponseArm (rr : RelayResponse) : Sound (handleResponseArm lib config conn rr draws) := by
  have answer : ∀ controller, Sound (answerPeerInitiatedRelay lib rr controller conn draws) := by
    intro controller
    unfold answerPeerInitiatedRelay
    refine soundIte (soundRet _) (soundBind (soundAct _ rfl) fun token => ?_)
    cases (token : Option String) with
    | none => exact soundRet _
    | some token =>
      refine soundBind (soundPeerTicket _ _) fun ticket => ?_
      cases ticket with
      | none => exact soundRet _
      | some ticket => exact soundBare (everyReplyOnConnection rfl (fun _ => rfl) (fun _ => rfl) fun _ _ => rfl)
  have relay : Sound (getRelayServer config) := soundBare (everyGetRelayServer rfl)
  unfold handleResponseArm
  refine soundBind (answer _) fun _ => soundBind ?_ fun rr => soundBind ?_ fun _ => soundSendToTcp _ _
  · exact soundIte (soundRet _) (soundBind (soundGetPk _ _) fun _ => soundRet _)
  · exact soundIte (soundRet _) (soundIte (soundRet _) (soundIte relay (soundRet _)))

theorem soundHandleTcp (bytes : Bytes) : Sound (handleTcp lib config key conn bytes draws) := by
  have tcpPeer : Sound (isTcpPeer lib conn.addr) := soundBare (everyIsTcpPeer fun _ => rfl)
  have adopt : Sound (adoptSink lib conn) := soundBare (everyAdoptSink rfl fun _ => rfl)
  unfold handleTcp
  split
  · exact soundPunchArm _
  · exact soundRelayArm _
  · exact soundBind (soundResponseArm _) fun _ => tcpPeer
  · refine soundBind ?_ fun _ => tcpPeer
    exact soundBind (soundGetPk _ _) fun _ => soundSendToTcp _ _
  · refine soundBind ?_ fun _ => tcpPeer
    exact soundBind (soundGetPk _ _) fun _ => soundSendToTcp _ _
  · exact soundBind (soundReply _) fun _ => tcpPeer
  · refine soundBind ?_ fun _ => soundRet _
    unfold handleTcpRegisterPeer
    refine soundIte (soundRet _) (soundBind adopt fun _ => soundBind (soundRegisterPeerResponse _ _) fun _ => ?_)
    refine soundBind (soundSendToTcpPeer _ _) fun _ => soundIte ?_ (soundRet _)
    exact soundBind (soundSendToTcpPeer _ _) fun _ => soundRet _
  · refine soundBind ?_ fun _ => soundRet _
    unfold handleTcpRegisterPk
    refine soundIte (soundRet _) (soundBind adopt fun _ => soundBind (soundRegisterPkResult _ _ _ _) fun _ => ?_)
    exact soundBind (soundSendToTcpPeer _ _) fun _ => soundRet _
  · exact tcpPeer

theorem soundHandleUdp (addr : SocketAddr) (bytes : Bytes) : Sound (handleUdp lib config addr bytes draws) := by
  unfold handleUdp
  split
  · refine soundIte (soundBind (soundRegisterPeerResponse _ _) fun _ => soundOp rfl fun _ => ?_) (soundRet _)
    exact soundIte (soundAct _ rfl) (soundRet _)
  · exact soundIte (soundRet _) (soundBind (soundRegisterPkResult _ _ _ _) fun _ => soundAct _ rfl)
  · exact soundAct _ rfl
  · exact soundIte (soundAct _ rfl) (soundRet _)
  · exact soundIte (soundAct _ rfl) (soundRet _)
  · exact soundRet _

theorem soundOnlineList (peers : List String) : Sound (onlineList peers) := by
  induction peers with
  | nil => exact soundRet _
  | cons id rest ih =>
    have later : ∀ online : Bool, Sound (onlineList rest >>= fun others =>
      (.ret (online :: others) : Prog Op Resp (List Bool))) :=
      fun online => soundBind ih fun _ => soundRet _
    unfold onlineList
    refine soundMapRead (later false) fun peer done given => usedOnce given ⟨rfl,rfl⟩ fun r => ?_
    obtain ⟨elapsed,addr⟩ := r
    exact later _ _

theorem onlineCountPointed (timeout : Nat) {peers : List LockPeer} {done} (given : ∀ peer ∈ peers, Taken done peer) :
    (onlineCount timeout peers).EveryAfter Pointed done := by
  induction peers generalizing done with
  | nil => trivial
  | cons peer rest ih =>
    unfold onlineCount act
    simp only [performIs,bindOp,bindRet]
    refine usedOnce (given peer (.head _)) ⟨rfl,rfl⟩ fun _ => everyAfterBind (ih fun other member => ?_) fun _ _ => trivial
    exact takenAppend (given other (.tail _ member)) _

theorem soundPeerTransport : Sound logPeerTransport := by
  intro done
  unfold logPeerTransport act
  simp only [performIs,bindOp,bindRet]
  refine ⟨barePointed rfl,fun peers => ?_⟩
  refine everyAfterBind (onlineCountPointed _ fun peer member => takenLast member) fun online _ => ?_
  exact ⟨barePointed rfl,fun tcp => ⟨barePointed rfl,fun _ => trivial⟩⟩

theorem soundClosing : Sound (closing lib conn) := soundBare (everyClosing rfl rfl rfl rfl)

theorem soundServe (frame : Bytes) (link : Link) : Sound (serve lib key conn frame draws link) := by
  have rest : ∀ bytes, Sound (handleTcp lib link.config key conn bytes draws >>= fun keep =>
      if keep then act (.served conn) else closing lib conn) :=
    fun bytes => soundBind (soundHandleTcp bytes) fun keep => soundIte (soundAct _ rfl) soundClosing
  unfold serve
  split
  · exact soundOp rfl fun _ => soundAct _ rfl
  · exact soundClosing
  · rename_i bytes treated
    split
    · exact soundOp rfl fun _ => rest bytes
    · exact rest bytes

theorem soundTurning {body : Config → Prog Op Resp α} (all : ∀ config, Sound (body config)) : Sound (turning body) :=
  soundBind (soundAct _ rfl) fun config => soundBind (all config) fun _ => soundBind (soundAct _ rfl) fun _ => soundRet _

theorem soundProgram (c : Call) : Sound (program lib key c) := by
  have turn : Sound (turning pure) := soundTurning fun _ => soundRet _
  cases c with
  | account c => exact soundBind (soundBare (everyAccount (fun _ => rfl) _)) fun _ => soundRet _
  | accept conn secret publicKey =>
    refine soundBind turn fun config => soundOp rfl fun _ => ?_
    have done : Sound (act (.served conn)) := soundAct _ rfl
    refine soundIte ?_ done
    cases config.inner.sk with
    | none => exact done
    | some sk => exact soundOp rfl fun _ => soundOp rfl fun _ => done
  | tcp conn frame draws =>
    refine soundOp rfl fun link => ?_
    cases (link : Option Link) with
    | none => exact soundRet _
    | some link => exact soundServe _ _
  | close conn => exact soundOp rfl fun _ => soundClosing
  | udp addr bytes draws => exact soundTurning fun _ => soundHandleUdp _ _
  | turn =>
    refine soundTurning fun config => soundOp rfl fun data => ?_
    cases (data : Option Data) with
    | none => exact soundRet _
    | some data =>
      cases data with
      | msg m addr => exact soundBare (everyDeliver (fun _ => rfl) (fun _ => rfl) fun _ _ => rfl)
      | relayServers0 rs => exact soundAct _ rfl
      | relayServers rs => exact soundAct _ rfl
  | nat addr bytes =>
    refine soundBind turn fun config => soundIte ?_ (soundRet _)
    cases lib.parse bytes with
    | none => exact soundRet _
    | some m =>
      cases m with
      | testNatRequest serial => exact soundAct _ rfl
      | onlineRequest peers => exact soundBind (soundOnlineList peers) fun _ => soundAct _ rfl
      | _ => exact soundRet _
  | console addr cmd =>
    refine soundBind turn fun config => soundIte ?_ (soundRet _)
    cases cmd with
    | relayServers rs => exact soundAct _ rfl
    | alwaysUseRelay arg => exact soundOp rfl fun _ => soundAct _ rfl
    | testGeo => exact soundBind (soundBare (everyGetRelayServer rfl)) fun _ => soundRet _
    | display => exact soundRet _
    | _ => exact soundAct _ rfl
  | relayCheck reachable =>
    refine soundBind turn fun config => soundIte ?_ (soundRet _)
    exact soundIte (soundAct _ rfl) (soundRet _)
  | peerTransport => exact soundTurning fun _ => soundPeerTransport
  | testHbbs addr => exact soundAct _ rfl

end Programs

/- The entry of an id in PeerMap. -/
def entry (s : Server) (id : String) : Option LockPeer := s.registry.map.lookup id

/- The id for which an operation puts an entry into the map. -/
def puts : Op → Option String
  | .registry (.insertLoaded _ id) | .registry (.getOrInsert id) => some id
  | _ => none

/- A load overtaken by another call: since it missed the id in the map an entry was put there,
and now it comes to insert what it read from the table. -/
def Overtaken (w : World) (i : Nat) : Prop :=
  ∃ miss ∈ w.log, ∃ put ∈ w.log, miss.task = i ∧ miss.pos < put.pos ∧
    ∃ id ∈ (w.next i).bind loads, missed miss.did = some id ∧ puts put.did.1 = some id

def LoadsInTime (w : World) : Act Call Env → Prop
  | .advance i => ¬ Overtaken w i
  | _ => True

/- Entries stay for good, and every peer that was read or written was the entry of its id. -/
structure EntriesKept (w : World) : Prop where
  kept : ∀ e ∈ w.log, ∀ id ref, entry e.before id = some ref → entry w.shared id = some ref
  current : ∀ e ∈ w.log, ∀ peer ∈ used e.did.1, entry e.before peer.id = some peer
  shared : ∀ e ∈ w.log, ∀ e' ∈ w.log, ∀ peer ∈ used e.did.1, ∀ peer' ∈ used e'.did.1,
    peer.id = peer'.id → peer = peer'

section Steps
variable {lib : Library} {expired : Nat → Nat}

/- The map as an operation leaves it: only a load can find an entry in its place. -/
theorem mapAfter (o : Op) (s : Server) : (exec lib expired o s).2.registry.map = s.registry.map ∨
    ∃ id ref, (exec lib expired o s).2.registry.map = s.registry.map.insert id ref ∧ LockPeer.id ref = id ∧
      puts o = some id ∧ (entry s id = none ∨ loads o = some id) := by
  cases o with
  | registry o =>
    cases o with
    | insertLoaded row id => exact .inr ⟨id,_,rfl,rfl,rfl,.inr rfl⟩
    | getOrInsert id =>
      simp only [exec,PeerRegistry.exec]
      cases absent : s.registry.map.lookup id with
      | none => exact .inr ⟨id,_,rfl,rfl,rfl,.inl absent⟩
      | some ref => exact .inl rfl
    | dbInsertPeer id uuid pk info guid fails =>
      simp only [exec,PeerRegistry.exec]
      split
      · exact .inl rfl
      · split <;> exact .inl rfl
    | dbUpdatePk guid id pk info fails =>
      simp only [exec,PeerRegistry.exec]
      split
      · exact .inl rfl
      · split <;> exact .inl rfl
    | peerRefresh peer addr =>
      simp only [exec,PeerRegistry.exec]
      split <;> exact .inl rfl
    | _ => exact .inl rfl
  | offerKey conn secret => exact .inl (by simp only [exec,Server.relink]; split <;> rfl)
  | secure conn key => exact .inl (by simp only [exec,Server.relink]; split <;> rfl)
  | receive conn frame => exact .inl (by simp only [exec,Server.relink]; split <;> rfl)
  | takeSink conn => exact .inl (by simp only [exec,Server.relink]; split <;> rfl)
  | peersTake addr => exact .inl (by simp only [exec]; split <;> rfl)
  | peersPutBack addr sink => exact .inl (by simp only [exec]; split <;> rfl)
  | recordPunch fromIp toIp toId => exact .inl (by simp only [exec]; split <;> rfl)
  | _ => exact .inl rfl

/- Every entry is a pointer that was made for its id. -/
def Named (s : Server) : Prop := ∀ id ref, entry s id = some ref → ref.id = id

theorem namedAfter {o : Op} {s : Server} (named : Named s) : Named (exec lib expired o s).2 := by
  intro id ref found
  unfold entry at found
  rcases mapAfter o s with same | ⟨id',ref',inserted,mine,_,_⟩
  · rw [same] at found
    exact named id ref found
  · rw [inserted] at found
    by_cases here : id = id'
    · subst here
      rw [AList.lookup_insert] at found
      cases Option.some.inj found
      exact mine
    · rw [AList.lookup_insert_ne here] at found
      exact named id ref found

theorem entryKept {o : Op} {s : Server} (inTime : ∀ id, loads o = some id → entry s id = none) {id ref}
    (found : entry s id = some ref) : entry (exec lib expired o s).2 id = some ref := by
  unfold entry
  rcases mapAfter o s with same | ⟨id',ref',inserted,_,_,free⟩
  · rw [same]
    exact found
  · have absent : entry s id' = none := free.elim (fun h => h) (inTime id')
    have apart : id ≠ id' := by
      rintro rfl
      rw [found] at absent
      cases absent
    rw [inserted,AList.lookup_insert_ne apart]
    exact found

theorem entryPut {o : Op} {s : Server} {id ref} (found : entry (exec lib expired o s).2 id = some ref) :
    entry s id = some ref ∨ puts o = some id := by
  unfold entry at found
  rcases mapAfter o s with same | ⟨id',ref',inserted,_,put,_⟩
  · rw [same] at found
    exact .inl found
  · by_cases here : id = id'
    · subst here
      exact .inr put
    · rw [inserted,AList.lookup_insert_ne here] at found
      exact .inl found

theorem missedNone {o : Op} {s : Server} {id} (miss : missed ⟨o,(exec lib expired o s).1⟩ = some id) :
    entry s id = none := by
  unfold missed at miss
  split at miss
  · rename_i id' same
    injection same with op resp
    subst op
    cases Option.some.inj miss
    exact eq_of_heq resp
  · cases miss

/- A pointer that an operation takes from the map is an entry afterwards. -/
theorem takenEntry {o : Op} {s : Server} (named : Named s) {peer}
    (took : peer ∈ taken ⟨o,(exec lib expired o s).1⟩) : entry (exec lib expired o s).2 peer.id = some peer := by
  unfold taken at took
  split at took
  · rename_i id found same
    cases same
    have entry : entry s id = some peer := Option.mem_toList.mp took
    have mine : peer.id = id := named id peer entry
    rw [mine]
    exact entry
  · rename_i row id ref same
    cases same
    cases List.mem_singleton.mp took
    exact AList.lookup_insert _
  · rename_i id ref same
    cases same
    have result : ((PeerRegistry.exec expired (.getOrInsert id) s.registry).1 : LockPeer) = peer :=
      (List.mem_singleton.mp took).symm
    have after : (PeerRegistry.exec expired (.getOrInsert id) s.registry).2.map.lookup peer.id = some peer := by
      simp only [PeerRegistry.exec] at result ⊢
      cases absent : s.registry.map.lookup id with
      | none =>
        rw [absent] at result
        cases result
        exact AList.lookup_insert _
      | some ref =>
        rw [absent] at result
        cases result
        have mine : ref.id = id := named id ref absent
        rw [mine]
        exact absent
    exact after
  · rename_i peers same
    cases same
    obtain ⟨⟨id,ref⟩,inside,rfl⟩ := List.mem_map.mp took
    have there : entry s id = some ref := AList.mem_lookup_iff.mpr inside
    have mine : ref.id = id := named id ref there
    rw [← mine] at there
    exact there
  · cases took

end Steps

section Runs
variable {lib : Library} {expired : Nat → Nat} {key : String} {ok : World → Act Call Env → Prop} {s : Server} {w : World}

/- What the events of a run know of the map as it is now. -/
structure Known (w : World) : Prop where
  named : Named w.shared
  put : ∀ id ref, entry w.shared id = some ref → ∀ e ∈ w.log, entry e.before id = none →
    ∃ d ∈ w.log, puts d.did.1 = some id ∧ e.pos ≤ d.pos
  kept : ∀ e ∈ w.log, ∀ id ref, entry e.before id = some ref → entry w.shared id = some ref
  current : ∀ e ∈ w.log, ∀ peer ∈ taken e.did, entry w.shared peer.id = some peer

/- A load in time finds no entry in its place. -/
theorem loadFree (known : Known w) (reach : (machine lib expired key).Reach ok s w) {i c o} {next : Resp o → Prog Op Resp Unit}
    (waiting : w.tasks[i]? = some ⟨c,.op o next,true⟩) (inTime : ¬ Overtaken w i) {id} (load : loads o = some id) :
    entry w.shared id = none := by
  obtain ⟨_,misses⟩ := (everyAfterOnPath (Machine.taskPath reach waiting) (soundProgram c [])).1
  obtain ⟨d,done,miss⟩ := misses id (Option.mem_def.mpr load)
  obtain ⟨e,member,task,rfl⟩ := didsOfMember.mp done
  obtain ⟨_,_,_,_,_,response,_,_⟩ := Machine.moment reach member
  have absent : entry e.before id = none := by
    have same : e.did = ⟨e.did.1,(exec lib expired e.did.1 e.before).1⟩ := Machine.didIs rfl response
    have here : missed ⟨e.did.1,(exec lib expired e.did.1 e.before).1⟩ = some id := by rw [← same]; exact miss
    exact missedNone here
  cases here : entry w.shared id with
  | none => rfl
  | some ref =>
    obtain ⟨put,inside,puts,later⟩ := known.put id ref here e member absent
    have apart : e.pos ≠ put.pos := by
      intro same
      cases Machine.samePosition reach member inside same
      unfold missed at miss
      split at miss
      · rename_i read
        rw [read] at puts
        cases puts
      · cases miss
    refine absurd ⟨e,member,put,inside,task,by omega,id,?_,miss,puts⟩ inTime
    rw [nextIs waiting]
    exact load

theorem runKnown (inTime : ∀ w a, ok w a → LoadsInTime w a) (empty : s.registry.map = ∅)
    (reach : (machine lib expired key).Reach ok s w) : Known w := by
  have absent : ∀ id, entry s id = none := fun id => by rw [entry,empty]; rfl
  refine Machine.invariant (I := Known) ?_ ?_ ?_ ?_ reach
  · refine ⟨fun id ref found => ?_,by simp [Machine.initial],by simp [Machine.initial],by simp [Machine.initial]⟩
    cases (absent id).symm.trans found
  · intro w c _ _ ih
    exact ⟨ih.named,ih.put,ih.kept,ih.current⟩
  · intro w i c o next before meets found _ ih
    have free : ∀ id, loads o = some id → entry w.shared id = none := fun id => loadFree ih before found (inTime _ _ meets)
    refine ⟨namedAfter ih.named,fun id ref here e member absent => ?_,fun e member id ref here => ?_,
      fun e member peer took => ?_⟩
    · rcases entryPut here with old | put
      · rcases Machine.memPerformed.mp member with earlier | rfl
        · obtain ⟨d,inside,puts,later⟩ := ih.put id ref old e earlier absent
          exact ⟨d,Machine.stillThere inside,puts,later⟩
        · cases absent.symm.trans old
      · refine ⟨_,Machine.happened,put,?_⟩
        rcases Machine.memPerformed.mp member with earlier | rfl
        · exact Nat.le_of_lt (Machine.olderPosition before earlier)
        · exact Nat.le_refl _
    · rcases Machine.memPerformed.mp member with old | rfl
      · exact entryKept free (ih.kept e old id ref here)
      · exact entryKept free here
    · rcases Machine.memPerformed.mp member with old | rfl
      · exact entryKept free (ih.current e old peer took)
      · exact takenEntry ih.named took
  · intro w e _ _ ih
    have same : ∀ id, entry (e.apply w.shared) id = entry w.shared id := by
      intro id
      cases e <;> rfl
    refine ⟨fun id ref found => ih.named id ref ((same id).symm.trans found),fun id ref found => ?_,
      fun e' member id ref found => ?_,fun e' member peer took => ?_⟩
    · exact ih.put id ref ((same id).symm.trans found)
    · exact (same id).trans (ih.kept e' member id ref found)
    · exact (same _).trans (ih.current e' member peer took)

end Runs

/- As long as no load is overtaken, PeerMap hands out one pointer for each id: what is
written through it is what every later reader of the id reads. -/
theorem entriesKeptUnlessOvertaken {lib : Library} {expired : Nat → Nat} {key : String} {now : Nat}
    {accounts : AccountStore.Store} {table : PeerRegistry.Peers} {config : Config} {w : World}
    (reach : (machine lib expired key).Reach LoadsInTime (.init accounts (.init now table) config) w) : EntriesKept w := by
  have current : ∀ e ∈ w.log, ∀ peer ∈ used e.did.1, entry e.before peer.id = some peer := by
    intro e member peer uses
    obtain ⟨v,reached,_,shared,history,_,_,_,waiting⟩ := Machine.moment reach member
    have pointed := everyAfterOnPath (Machine.taskPath reached waiting) (soundProgram e.call [])
    obtain ⟨d,done,took⟩ := pointed.1.1 peer uses
    obtain ⟨a,inside,_,did⟩ := didsOfMember.mp done
    have known := runKnown (fun _ _ h => h) rfl reached
    rw [← shared]
    exact known.current a inside peer (by rw [did]; exact took)
  have known := runKnown (fun _ _ h => h) rfl reach
  refine ⟨known.kept,current,fun e member e' member' peer uses peer' uses' same => ?_⟩
  have left := known.kept e member _ _ (current e member peer uses)
  have right := known.kept e' member' _ _ (current e' member' peer' uses')
  rw [same,right] at left
  exact (Option.some.inj left).symm

instance (w : World) (i : Nat) : Decidable (Overtaken w i) := by unfold Overtaken; infer_instance
instance (w : World) : (a : Act Call Env) → Decidable (LoadsInTime w a)
  | .advance i => inferInstanceAs (Decidable (¬ Overtaken w i))
  | .start _ | .env _ => .isTrue trivial

/- The row of a peer that registered before hbbs was restarted. -/
def storedPeer : PeerRegistry.PeerRow := ⟨[9],"100000003",[1],[2],⟨"203.0.113.5"⟩⟩

def oneRow : PeerRegistry.Peers := ⟨[storedPeer],List.pairwise_singleton _ _⟩

def requestOrRegister : Bytes → Option Message
  | [1] => some (.punchHoleRequest ⟨"100000003",.asymmetric,"",controllerToken.text⟩)
  | [2] => some (.registerPk ⟨"100000003",[1],[3]⟩)
  | _ => none

def controllerConn : Conn := ⟨0,⟨.v4 198 51 100 2,4000⟩,false⟩

def requesting : List (Act Call Env) :=
  [.start (.accept controllerConn [] [])] ++ advances 0 4 ++
    [.start (.tcp controllerConn [1] (calm AccountCalls.mintedB))] ++ advances 1 7

def registering : Act Call Env := .start (.udp ⟨.v4 203 0 113 5,21116⟩ [2] (calm AccountCalls.mintedC))

def booted : Server := .init signedIn (.init bootInstant oneRow) oneServer

/- The request for a punch hole has read the row, the peer registers from start to end, and only
then the request inserts what it read. -/
def overtakenActs : List (Act Call Env) := requesting ++ [registering] ++ advances 2 12 ++ advances 1 1

theorem registrationOverwritten : ∃ w,
    (machine (plainLibrary requestOrRegister) hourAgo "").Reach (fun _ _ => True) booted w ∧ ¬ EntriesKept w := by
  obtain ⟨w,reach,shown⟩ := Machine.reachWith (fun _ _ => True) (fun _ _ => true) (fun _ _ _ => trivial) overtakenActs
    (m := machine (plainLibrary requestOrRegister) hourAgo "") (s := booted)
    (P := fun w => w.log.any (fun e => entry e.before "100000003" = some ⟨"100000003",0⟩) &&
      decide (entry w.shared "100000003" = some ⟨"100000003",1⟩)) (by decide +kernel)
  simp only [Bool.and_eq_true,List.any_eq_true,decide_eq_true_eq] at shown
  obtain ⟨⟨e,member,first⟩,last⟩ := shown
  refine ⟨w,reach,fun keeps => ?_⟩
  have still := keeps.kept e member _ _ first
  rw [last] at still
  cases still

/- Here the request inserts the peer before the registration looks it up. -/
def inTimeActs : List (Act Call Env) := requesting ++ advances 1 1 ++ [registering] ++ advances 2 9

theorem registrationSeen : ∃ w,
    (machine (plainLibrary requestOrRegister) hourAgo "").Reach LoadsInTime booted w ∧
    entry w.shared "100000003" = some ⟨"100000003",0⟩ ∧ (w.shared.registry.peer ⟨"100000003",0⟩).pk = [3] ∧
    EntriesKept w := by
  obtain ⟨w,reach,shown⟩ := Machine.reachWith LoadsInTime (fun w a => decide (LoadsInTime w a))
    (fun _ _ => of_decide_eq_true) inTimeActs (m := machine (plainLibrary requestOrRegister) hourAgo "") (s := booted)
    (P := fun w => decide (entry w.shared "100000003" = some ⟨"100000003",0⟩) &&
      decide ((w.shared.registry.peer ⟨"100000003",0⟩).pk = [3])) (by decide +kernel)
  obtain ⟨there,written⟩ := Bool.and_eq_true_iff.mp shown
  exact ⟨w,reach,of_decide_eq_true there,of_decide_eq_true written,entriesKeptUnlessOvertaken reach⟩

end OpenuuServer.PeerPointers
