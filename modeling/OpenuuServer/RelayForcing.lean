import OpenuuServer.RendezvousPrograms

/-! ALWAYS_USE_RELAY and what a punch request makes hbbs say to the peer. The peer is told either to
punch a hole, with the type of NAT to assume, or to report its local addresses; a symmetric NAT makes
both ends go through a relay. -/
namespace OpenuuServer.RelayForcing
open AtomicProgram RendezvousMessages RendezvousServer RendezvousPrograms
open PeerRegistry (Bytes SocketAddr LockPeer Registry Outage)

/- The messages to a peer that prepare a session. -/
def coordinates : Message → Bool
  | .fetchLocalAddr _ | .punchHole _ => true
  | _ => false

def sameIntranet (config : Config) (conn : Conn) (peerAddr : SocketAddr) : Bool :=
  !conn.ws && (config.isLan peerAddr && config.isLan conn.addr || sameFamilyIp peerAddr conn.addr)

/- What `handle_punch_hole_request` sends on, given what it read. -/
def forwarded (lib : Library) (config : Config) (conn : Conn) (peerAddr : SocketAddr) (always : Bool)
    (relayServer : String) (natType : NatType) : Message :=
  let forced := always || (config.isLan peerAddr ^^ config.isLan conn.addr)
  if sameIntranet config conn peerAddr then .fetchLocalAddr ⟨lib.encode conn.addr,relayServer⟩
  else .punchHole ⟨lib.encode conn.addr,relayServer,if forced then .symmetric else natType⟩

def Forced (m : Message) : Prop := ∃ socketAddr relayServer, m = .punchHole ⟨socketAddr,relayServer,.symmetric⟩

theorem forwardedForced (lib : Library) (config : Config) (conn : Conn) (peerAddr : SocketAddr) (relayServer : String)
    (natType : NatType) : Forced (forwarded lib config conn peerAddr true relayServer natType) ↔
      sameIntranet config conn peerAddr = false := by
  unfold forwarded
  cases near : sameIntranet config conn peerAddr with
  | true =>
    refine ⟨?_,fun wrong => by cases wrong⟩
    rintro ⟨_,_,same⟩
    cases same
  | false => exact ⟨fun _ => rfl,fun _ => ⟨_,_,rfl⟩⟩

section Programs
variable {lib : Library} {key : String} {conn : Conn} {config : Config} {draws : Draws}

/- What lies behind a message that goes to a peer. -/
def Asked (lib : Library) (config : Config) (conn : Conn) (done : List (Did Op Resp)) (m : Message) (addr : SocketAddr) : Prop :=
  ∃ always relayServer natType, ⟨.readAlwaysUseRelay,always⟩ ∈ done ∧
    m = forwarded lib config conn addr always relayServer natType

theorem punchRequestEnds (ph : PunchHoleRequest) (done : List (Did Op Resp)) :
    (handlePunchHoleRequest lib config key conn ph draws).Ends
      (fun done r => ∀ addr, r.2 = some addr → Asked lib config conn done r.1 addr) done := by
  unfold handlePunchHoleRequest act
  simp only [performIs,bindOp,bindRet]
  have nobody : ∀ (msg : Message) (done : List (Did Op Resp)), ∀ addr, (none : Option SocketAddr) = some addr →
      Asked lib config conn done msg addr := fun _ _ _ wrong => by cases wrong
  refine endsIte.mpr ⟨fun _ => nobody _ _,fun _ => endsBind.mpr (endsAll (fun done peer => ?_) _ _)⟩
  cases peer with
  | none => exact nobody _ _
  | some peer =>
    refine fun seen => endsIte.mpr ⟨fun _ => nobody _ _,fun _ _ => endsBind.mpr (endsAll (fun done server => ?_) _ _)⟩
    intro always
    have read : ⟨.readAlwaysUseRelay,always⟩ ∈ done ++ [(⟨.readAlwaysUseRelay,always⟩ : Did Op Resp)] :=
      List.mem_append_right _ (.head _)
    dsimp only
    split
    · rename_i near
      rintro addr ⟨⟩
      exact ⟨always,if (always || (config.isLan seen.2 ^^ config.isLan conn.addr)) && config.isLan seen.2
        then config.inner.localIp else server,ph.natType,read,(if_pos near).symm⟩
    · rename_i far
      rintro addr ⟨⟩
      exact ⟨always,if (always || (config.isLan seen.2 ^^ config.isLan conn.addr)) && config.isLan seen.2
        then config.inner.localIp else server,ph.natType,read,(if_neg far).symm⟩

/- All other messages that a handler queues are of other kinds. -/
def quiet : Op → Bool
  | .enqueue (.msg m _) => !coordinates m
  | _ => true

theorem quietPeer (addr : SocketAddr) (msg : Message) : (sendToTcpPeer lib addr msg).Every fun o => quiet o = true :=
  everySendToTcpPeer (fun _ => rfl) (fun _ => rfl) fun _ _ => rfl

theorem quietReply (msg : Message) : (replyOnConnection lib conn msg).Every fun o => quiet o = true :=
  everyReplyOnConnection rfl (fun _ => rfl) (fun _ => rfl) fun _ _ => rfl

theorem quietAnswer (msg : Message) (addr : SocketAddr) : (sendToTcp lib msg addr).Every fun o => quiet o = true :=
  everySendToTcp (fun _ => rfl) (fun _ => rfl) (fun _ => rfl) fun _ _ => rfl

theorem quietAdopt : (adoptSink lib conn).Every fun o => quiet o = true := everyAdoptSink rfl fun _ => rfl

theorem quietRelayArm (rf : RequestRelay) : (handleRelayArm lib conn rf draws).Every fun o => quiet o = true := by
  unfold handleRelayArm act
  refine everyBind (everyAuthorized (fun _ => rfl) _) fun allowed => everyIte.mpr ⟨fun _ => trivial,fun _ => ?_⟩
  refine everyBind (everyPeerTicket (fun _ => rfl) _ _) fun ticket => everyPark rfl (fun _ => rfl) rfl (fun _ => rfl) ?_
  refine everyBind (p := registry _) (everyRegistry (fun _ => rfl) _) fun peer => ?_
  cases (peer : Option LockPeer) with
  | none => trivial
  | some peer => exact everyBind (everyRegistry (fun _ => rfl) _) fun p => ⟨rfl,fun _ => trivial⟩

theorem quietResponseArm (rr : RelayResponse) : (handleResponseArm lib config conn rr draws).Every fun o => quiet o = true := by
  have answered : ∀ controller, (answerPeerInitiatedRelay lib rr controller conn draws).Every fun o => quiet o = true := by
    intro controller
    refine everyIte.mpr ⟨fun _ => trivial,fun _ => ⟨rfl,fun token => ?_⟩⟩
    cases (token : Option String) with
    | none => trivial
    | some token =>
      refine everyBind (p := peerTicket lib token rr.uuid draws) (everyPeerTicket (fun _ => rfl) _ _) fun ticket => ?_
      cases ticket with
      | none => trivial
      | some ticket => exact quietReply _
  have named : ∀ rr, (withPk lib config rr draws).Every fun o => quiet o = true := fun rr =>
    everyIte.mpr ⟨fun _ => trivial,fun _ => everyBind (everyGetPk (fun _ => rfl) _ _) fun _ => trivial⟩
  have chosen : ∀ rr addrB, (relayServerFor config rr addrB).Every fun o => quiet o = true := fun rr addrB =>
    everyIte.mpr ⟨fun _ => trivial,fun _ => everyIte.mpr ⟨fun _ => trivial,fun _ =>
      everyIte.mpr ⟨fun _ => everyGetRelayServer rfl,fun _ => trivial⟩⟩⟩
  unfold handleResponseArm
  exact everyBind (answered _) fun _ => everyBind (named _) fun rr => everyBind (chosen _ _) fun _ => quietAnswer _ _

/- What stands behind a queued message that coordinates a session: a message on a connection, read
with the configuration of its link. -/
def Guard (lib : Library) (c : Call) (done : List (Did Op Resp)) (o : Op) : Prop :=
  ∀ m addr, o = .enqueue (.msg m addr) → coordinates m = true →
    ∃ conn frame draws link, c = .tcp conn frame draws ∧ ⟨.receive conn (some frame),some link⟩ ∈ done ∧
      Asked lib link.config conn done m addr

theorem quietGuard {c : Call} {o : Op} (free : quiet o = true) (done : List (Did Op Resp)) : Guard lib c done o := by
  rintro m addr rfl loud
  simp [quiet,loud] at free

theorem guardOfQuiet {α : Type} {c : Call} {p : Prog Op Resp α} (all : p.Every fun o => quiet o = true)
    (done : List (Did Op Resp)) : p.EveryAfter (Guard lib c) done :=
  everyAfterOfEvery (fun done _ free => quietGuard free done) all done

theorem punchArmGuarded {frame : Bytes} {link : Link} (ph : PunchHoleRequest) {done : List (Did Op Resp)}
    (received : ⟨.receive conn (some frame),some link⟩ ∈ done) :
    (handlePunchArm lib link.config key conn ph draws).EveryAfter (Guard lib (.tcp conn frame draws)) done := by
  have asked : ∀ done, ⟨.receive conn (some frame),some link⟩ ∈ done →
      (handleTcpPunchHoleRequest lib link.config key conn ph draws >>= fun _ => (.ret true : Prog Op Resp Bool)).EveryAfter
        (Guard lib (.tcp conn frame draws)) done := by
    intro done there
    have silent : (handlePunchHoleRequest lib link.config key conn ph draws).Every fun o => quiet o = true :=
      everyPunchRequest (fun _ => rfl) (fun _ => rfl) (fun _ _ _ => rfl) (by rfl) (by rfl) ph
    refine everyAfterBind (everyAfterBindEnds (guardOfQuiet silent done) ?_) fun _ _ => trivial
    refine endsMono (fun done' made known => ?_) (endsBoth (punchRequestEnds ph done) (endsKept there))
    obtain ⟨msg,toAddr⟩ := made
    cases toAddr with
    | none => exact guardOfQuiet (quietAnswer msg conn.addr) done'
    | some addr =>
      refine ⟨?_,fun _ => trivial⟩
      rintro m peer ⟨⟩ _
      exact ⟨conn,frame,draws,link,rfl,known.2,known.1 addr rfl⟩
  unfold handlePunchArm act
  refine everyAfterBind (guardOfQuiet (everyAuthorized (fun _ => rfl) _) done) fun allowed later => ?_
  have there : ⟨.receive conn (some frame),some link⟩ ∈ done ++ later := List.mem_append_left _ received
  refine everyAfterIte.mpr ⟨fun _ => trivial,fun _ => ⟨quietGuard rfl _,fun sink => ?_⟩⟩
  have kept := List.mem_append_left [(⟨.takeSink conn,sink⟩ : Did Op Resp)] there
  cases (sink : Option Sink) with
  | none => exact ⟨quietGuard rfl _,fun _ => asked _ (List.mem_append_left _ kept)⟩
  | some sink =>
    exact ⟨quietGuard rfl _,fun _ => ⟨quietGuard rfl _,fun _ => asked _ (List.mem_append_left _ (List.mem_append_left _ kept))⟩⟩

theorem tcpGuarded {frame : Bytes} {link : Link} (bytes : Bytes) {done : List (Did Op Resp)}
    (received : ⟨.receive conn (some frame),some link⟩ ∈ done) :
    (handleTcp lib link.config key conn bytes draws).EveryAfter (Guard lib (.tcp conn frame draws)) done := by
  have tcpPeer : (isTcpPeer lib conn.addr).Every fun o => quiet o = true := everyIsTcpPeer fun _ => rfl
  unfold handleTcp
  split
  · exact punchArmGuarded _ received
  · exact guardOfQuiet (quietRelayArm _) done
  · exact guardOfQuiet (everyBind (quietResponseArm _) fun _ => tcpPeer) done
  · exact guardOfQuiet (everyBind (everyBind (everyGetPk (fun _ => rfl) _ _) fun _ => quietAnswer _ _) fun _ => tcpPeer) done
  · exact guardOfQuiet (everyBind (everyBind (everyGetPk (fun _ => rfl) _ _) fun _ => quietAnswer _ _) fun _ => tcpPeer) done
  · exact guardOfQuiet (everyBind (quietReply _) fun _ => tcpPeer) done
  · refine guardOfQuiet (everyBind (k := fun _ => .ret true) ?_ fun _ => trivial) done
    refine everyIte.mpr ⟨fun _ => trivial,fun _ => everyBind quietAdopt fun _ =>
      everyBind (everyRegistry (fun _ => rfl) _) fun _ => ?_⟩
    exact everyBind (quietPeer _ _) fun _ => everyIte.mpr ⟨fun _ => everyBind (quietPeer _ _) fun _ => trivial,fun _ => trivial⟩
  · refine guardOfQuiet (everyBind (k := fun _ => .ret true) ?_ fun _ => trivial) done
    refine everyIte.mpr ⟨fun _ => trivial,fun _ => everyBind quietAdopt fun _ =>
      everyBind (everyRegistry (fun _ => rfl) _) fun _ => ?_⟩
    exact everyBind (quietPeer _ _) fun _ => trivial
  · exact guardOfQuiet tcpPeer done

theorem programGuarded (c : Call) : (program lib key c).EveryAfter (Guard lib c) [] := by
  have others : (∀ m addr, ¬ Performs c (.enqueue (.msg m addr))) → (program lib key c).EveryAfter (Guard lib c) [] := by
    intro never
    refine everyAfterOfEvery (fun _ o allowed => ?_) (programPerforms lib key c) []
    rintro m addr rfl _
    exact absurd allowed (never m addr)
  cases c with
  | tcp conn frame draws =>
    have closes : ∀ done, (closing lib conn).EveryAfter (Guard lib (.tcp conn frame draws)) done :=
      guardOfQuiet (everyClosing rfl rfl rfl rfl)
    have served : ∀ done, (act (.served conn)).EveryAfter (Guard lib (.tcp conn frame draws)) done :=
      guardOfQuiet (everyAct rfl)
    refine ⟨quietGuard rfl _,fun link => ?_⟩
    cases (link : Option Link) with
    | none => trivial
    | some link =>
      have handled : ∀ bytes done, ⟨.receive conn (some frame),some link⟩ ∈ done →
          (handleTcp lib link.config key conn bytes draws >>= fun keep =>
            if keep then act (.served conn) else closing lib conn).EveryAfter (Guard lib (.tcp conn frame draws)) done := by
        refine fun bytes done there => everyAfterBind (tcpGuarded bytes there) fun keep later => ?_
        split
        · exact served _
        · exact closes _
      change (serve lib key conn frame draws link).EveryAfter _ _
      unfold serve
      split
      · exact ⟨quietGuard rfl _,fun _ => served _⟩
      · exact closes _
      · split
        · exact ⟨quietGuard rfl _,fun _ => handled _ _ (by simp)⟩
        · exact handled _ _ (by simp)
  | close conn => exact others fun _ _ wrong => by cases wrong
  | console addr cmd =>
    cases cmd with
    | testGeo => exact others fun _ _ wrong => wrong
    | _ => exact others fun _ _ wrong => by cases wrong
  | relayCheck reachable =>
    refine others fun _ _ wrong => ?_
    obtain ⟨_,wrong⟩ := wrong
    cases wrong
  | _ => exact others fun _ _ wrong => wrong

end Programs

/- While relays are forced, what is queued for a peer makes it go through a relay exactly when the two
ends are not taken for neighbours: over WebSocket, or with neither both in the LAN nor one IP. -/
theorem forcedUnlessNear {lib : Library} {expired : Nat → Nat} {key : String} {ok : World → Act Call Env → Prop} {s : Server}
    {w : World} (reach : (machine lib expired key).Reach ok s w) : ∀ e ∈ w.log, ∀ m addr,
    e.did.1 = .enqueue (.msg m addr) → coordinates m = true → ∃ conn frame draws link, e.call = .tcp conn frame draws ∧
      (∃ a ∈ w.log, a.task = e.task ∧ a.did = ⟨.receive conn (some frame),some link⟩) ∧
      ∃ r ∈ w.log, r.task = e.task ∧ r.pos < e.pos ∧ r.did.1 = .readAlwaysUseRelay ∧
        (r.before.alwaysUseRelay = true → (Forced m ↔ sameIntranet link.config conn addr = false)) := by
  intro e inside m addr queued loud
  obtain ⟨done,guard,past⟩ := Machine.guarded (fun _ c => programGuarded c) reach inside
  obtain ⟨conn,frame,draws,link,call,received,always,server,nat,read,rfl⟩ := guard m addr queued loud
  obtain ⟨a,there,task,_,did⟩ := past _ received
  obtain ⟨r,there',task',less,did'⟩ := past _ read
  refine ⟨conn,frame,draws,link,call,⟨a,there,task,did⟩,r,there',task',less,congrArg Sigma.fst did',fun on => ?_⟩
  have same : always = r.before.alwaysUseRelay := Machine.responseIs reach there' did'
  rw [same,on]
  exact forwardedForced lib link.config conn addr server nat

/- The main loop hands a queued message on as it is. -/
theorem deliveredAsQueued (lib : Library) (m : Message) (addr : SocketAddr) :
    (deliver lib m addr).Every fun o => ∀ route m', o = .send route m' → m' = m :=
  everyDeliver (fun _ _ _ wrong => by cases wrong) (fun _ _ _ same => by cases same; rfl) fun _ _ _ _ wrong => by cases wrong

def askedOrRegistered : Bytes → Option Message
  | [1] => some (.punchHoleRequest ⟨"100000003",.asymmetric,"",controllerToken.text⟩)
  | [2] => some (.registerPk ⟨"100000003",[1],[2]⟩)
  | _ => none

def houseConn (ws : Bool) : Conn := ⟨0,⟨.v4 203 0 113 5,4000⟩,ws⟩

def houseMachine := machine (plainLibrary askedOrRegistered) hourAgo ""

def unregistered : Server := .init signedIn (.init bootInstant .empty) oneServer

/- A peer registers, relays are forced on the console, and a controller behind the same address asks
for the peer. -/
def houseActs (ws : Bool) : List (Act Call Env) :=
  [.start (.udp ⟨.v4 203 0 113 5,21116⟩ [2] (calm AccountCalls.mintedB))] ++ advances 0 13 ++
    [.start (.console ⟨.v4 127 0 0 1,5⟩ (.alwaysUseRelay "Y"))] ++ advances 1 4 ++
    [.start (.accept (houseConn ws) [] [])] ++ advances 2 4 ++
    [.start (.tcp (houseConn ws) [1] (calm AccountCalls.mintedC))] ++ advances 3 10

theorem neighbourNotForced : ∃ w, houseMachine.Reach (fun _ _ => True) unregistered w ∧
    (∃ r ∈ w.log, r.task = 3 ∧ r.did.1 = .readAlwaysUseRelay ∧ r.before.alwaysUseRelay = true) ∧
    ∃ e ∈ w.log, e.task = 3 ∧ ∃ m addr, e.did.1 = .enqueue (.msg m addr) ∧ coordinates m = true ∧ ¬ Forced m := by
  obtain ⟨w,reach,shown⟩ := Machine.reachWith (fun _ _ => True) (fun _ _ => true) (fun _ _ _ => trivial) (houseActs false)
    (m := houseMachine) (s := unregistered)
    (P := fun w => (w.log.any fun r => decide (r.task = 3) && decide (r.did.1 = .readAlwaysUseRelay) && r.before.alwaysUseRelay) &&
      w.log.any fun e => decide (e.task = 3) && decide (e.did.1 = .enqueue (.msg
        (.fetchLocalAddr ⟨plainEncode (houseConn false).addr,""⟩) ⟨.v4 203 0 113 5,21116⟩))) (by decide +kernel)
  simp only [Bool.and_eq_true,List.any_eq_true,decide_eq_true_eq] at shown
  obtain ⟨⟨r,read,⟨task,did⟩,on⟩,e,inside,task',did'⟩ := shown
  refine ⟨w,reach,⟨r,read,task,did,on⟩,e,inside,task',_,_,did',rfl,?_⟩
  rintro ⟨_,_,same⟩
  cases same

theorem visitorForced : ∃ w, houseMachine.Reach (fun _ _ => True) unregistered w ∧ ∃ e ∈ w.log, ∃ m addr,
    e.did.1 = .enqueue (.msg m addr) ∧ coordinates m = true ∧
    ∃ conn frame draws link, e.call = .tcp conn frame draws ∧
      (∃ a ∈ w.log, a.task = e.task ∧ a.did = ⟨.receive conn (some frame),some link⟩) ∧
      ∃ r ∈ w.log, r.task = e.task ∧ r.pos < e.pos ∧ r.did.1 = .readAlwaysUseRelay ∧
        (r.before.alwaysUseRelay = true → (Forced m ↔ sameIntranet link.config conn addr = false)) := by
  obtain ⟨w,reach,shown⟩ := Machine.reachWith (fun _ _ => True) (fun _ _ => true) (fun _ _ _ => trivial) (houseActs true)
    (m := houseMachine) (s := unregistered)
    (P := fun w => w.log.any fun e => decide (e.did.1 = .enqueue (.msg
      (.punchHole ⟨plainEncode (houseConn true).addr,"",.symmetric⟩) ⟨.v4 203 0 113 5,21116⟩))) (by decide +kernel)
  simp only [List.any_eq_true,decide_eq_true_eq] at shown
  obtain ⟨e,inside,did⟩ := shown
  exact ⟨w,reach,e,inside,_,_,did,rfl,forcedUnlessNear reach e inside _ _ did rfl⟩

end OpenuuServer.RelayForcing
