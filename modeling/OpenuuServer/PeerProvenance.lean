import OpenuuServer.HandlerAuthority

/-! What stands behind an entry of PeerMap and behind the keys that hbbs signs. The place of a peer is that of
its latest accepted registration, whatever else has been going on in between; a key that is signed for
an id is one that was registered for it, by a message of this run or by a row the run began with. -/
namespace OpenuuServer.PeerProvenance
open AtomicProgram HistoryFolds RendezvousMessages RendezvousServer RendezvousPrograms RendezvousRuns
open HandlerAuthority (Reads readsLater everyAfterLonger everyAfterMono)
open PeerRegistry (Bytes SocketAddr LockPeer Registry Peer PeerRow Outage RegisterPk)
open PeerUnseen (Source getSource)

/- The task handles this message, which came from that address. -/
inductive Got (lib : Library) (c : Call) (addr : SocketAddr) (m : Message) (done : List (Did Op Resp)) : Prop where
  | tcp {conn config} (reads : Reads lib c conn config m done) (own : addr = conn.addr)
  | udp {bytes draws} (call : c = .udp addr bytes draws) (parsed : lib.parse bytes = some m)

/- The entry was found or made for the id. -/
def Held (id : String) (done : List (Did Op Resp)) (peer : LockPeer) : Prop :=
  Source id done peer ∨ ⟨.registry (.getOrInsert id),peer⟩ ∈ done

/- A RegisterPk that has passed the check against the entry. -/
structure Registers (lib : Library) (c : Call) (done : List (Did Op Resp)) (addr : SocketAddr) (rk : RegisterPk)
    (peer : LockPeer) :
    Prop where
  got : Got lib c addr (.registerPk rk) done
  held : Held rk.id done peer
  checked : ∃ stored, ⟨.registry (.peerRead peer),stored⟩ ∈ done ∧ (stored.uuid = [] ∨ stored.uuid = rk.uuid)

/- The peer whose key a message asks for. -/
def keyOf : Message → Option String
  | .punchHoleSent phs => some phs.id
  | .localAddr la => some la.id
  | .relayResponse rr => some rr.id
  | _ => none

/- No key, or what was read as that of the peer asked for, signed by the server. -/
def Vouched (lib : Library) (c : Call) (done : List (Did Op Resp)) (pk : Bytes) : Prop :=
  pk = [] ∨ ∃ conn config m sk id peer p, Reads lib c conn config m done ∧ keyOf m = some id ∧ config.inner.sk = some sk ∧
    Source id done peer ∧ ⟨.registry (.peerRead peer),p⟩ ∈ done ∧ pk = lib.sign sk id p.pk

/- A key that a peer sent along without an id is passed on. -/
def PassedOn (lib : Library) (c : Call) (done : List (Did Op Resp)) (pk : Bytes) : Prop :=
  ∃ conn config rr, Reads lib c conn config (.relayResponse rr) done ∧ rr.union = some (.pk pk)

/- What stands behind the operations that write entries and rows and those that send keys. -/
def Guard (lib : Library) (c : Call) (done : List (Did Op Resp)) : Op → Prop
  | .registry (.insertLoaded row id) => ∃ fails, ⟨.registry (.dbGetPeer id fails),.ok (some row)⟩ ∈ done
  | .registry (.peerRefresh peer addr) => ∃ rp, Got lib c addr (.registerPeer rp) done ∧
    ⟨.registry (.mapRead rp.id),some peer⟩ ∈ done
  | .registry (.peerUpdate peer addr uuid pk _) => ∃ rk, Registers lib c done addr rk peer ∧ uuid = rk.uuid ∧ pk = rk.pk
  | .registry (.dbInsertPeer id _ pk _ _ _) | .registry (.dbUpdatePk _ id pk _ _) =>
    ∃ addr rk peer, Registers lib c done addr rk peer ∧ id = rk.id ∧ pk = rk.pk
  | .send _ (.punchHoleResponse p) => c = .turn ∨ Vouched lib c done p.pk
  | .send _ (.relayResponse rr) => c = .turn ∨ ∀ pk, rr.union = some (.pk pk) → Vouched lib c done pk ∨ PassedOn lib c done pk
  | _ => True

/- The operations nothing needs to stand behind. -/
def free : Op → Bool
  | .registry (.insertLoaded _ _) | .registry (.peerRefresh _ _) | .registry (.peerUpdate _ _ _ _ _)
  | .registry (.dbInsertPeer _ _ _ _ _ _) | .registry (.dbUpdatePk _ _ _ _ _) => false
  | .send _ (.punchHoleResponse _) | .send _ (.relayResponse _) => false
  | _ => true

section Programs
variable {lib : Library} {key : String} {conn : Conn} {config : Config} {draws : Draws} {c : Call} {α : Type}
variable {done : List (Did Op Resp)} {addr : SocketAddr}

theorem freeGuard {o : Op} (unbound : free o = true) (done : List (Did Op Resp)) : Guard lib c done o := by
  cases o with
  | registry o => cases o <;> first | contradiction | trivial
  | send route m => cases m <;> first | contradiction | trivial
  | _ => trivial

theorem freeAfter {p : Prog Op Resp α} (all : p.Every fun o => free o = true) (done : List (Did Op Resp)) :
    p.EveryAfter (Guard lib c) done := everyAfterOfEvery (fun done _ unbound => freeGuard unbound done) all done

theorem gotLater {m : Message} (got : Got lib c addr m done) (later : List (Did Op Resp)) : Got lib c addr m (done ++ later) := by
  cases got with
  | tcp reads own => exact .tcp (readsLater reads later) own
  | udp call parsed => exact .udp call parsed

theorem sourceLater {id : String} {peer : LockPeer} (source : Source id done peer) (later : List (Did Op Resp)) :
    Source id (done ++ later) peer :=
  source.imp (List.mem_append_left _) fun ⟨row,there⟩ => ⟨row,List.mem_append_left _ there⟩

theorem heldLater {id : String} {peer : LockPeer} (held : Held id done peer) (later : List (Did Op Resp)) :
    Held id (done ++ later) peer := held.imp (sourceLater · later) (List.mem_append_left _)

theorem registersLater {rk : RegisterPk} {peer : LockPeer} (registers : Registers lib c done addr rk peer)
    (later : List (Did Op Resp)) : Registers lib c (done ++ later) addr rk peer := by
  obtain ⟨stored,there,same⟩ := registers.checked
  exact ⟨gotLater registers.got later,heldLater registers.held later,stored,List.mem_append_left _ there,same⟩

theorem vouchedLater {pk : Bytes} (vouched : Vouched lib c done pk) (later : List (Did Op Resp)) :
    Vouched lib c (done ++ later) pk := by
  rcases vouched with none | ⟨conn,config,m,sk,id,peer,p,reads,names,secret,source,read,same⟩
  · exact .inl none
  · exact .inr ⟨conn,config,m,sk,id,peer,p,readsLater reads later,names,secret,sourceLater source later,
      List.mem_append_left _ read,same⟩

theorem getGuarded (id : String) (fails : Bool) (done : List (Did Op Resp)) :
    (registry (PeerRegistry.PeerMap.get id fails)).EveryAfter (Guard lib c) done := by
  unfold registry PeerRegistry.PeerMap.get PeerRegistry.act
  simp only [performIs,bindOp,bindRet,embedOp,everyAfterOp]
  refine ⟨trivial,fun found => ?_⟩
  cases found with
  | some ref => trivial
  | none =>
    refine ⟨trivial,fun loaded => ?_⟩
    cases loaded with
    | error e => trivial
    | ok row =>
      cases row with
      | none => trivial
      | some row => exact ⟨⟨fails,by simp⟩,fun _ => trivial⟩

theorem registerPeerGuarded {rp : RegisterPeer} (got : Got lib c addr (.registerPeer rp) done) :
    (registry (PeerRegistry.registerPeerResponse rp.id addr)).EveryAfter (Guard lib c) done := by
  unfold registry PeerRegistry.registerPeerResponse PeerRegistry.act
  simp only [performIs,bindOp,bindRet,embedOp,everyAfterOp]
  refine ⟨trivial,fun old => ?_⟩
  cases old with
  | none => trivial
  | some ref => exact ⟨⟨rp,gotLater got _,by simp⟩,fun _ => trivial⟩

theorem updatePkGuarded {rk : RegisterPk} {peer : LockPeer} (registers : Registers lib c done addr rk peer) (ip : String)
    (newGuid : Bytes) (out : Outage) :
    (registry (PeerRegistry.PeerMap.updatePk rk.id peer addr rk.uuid rk.pk ip newGuid out)).EveryAfter (Guard lib c) done := by
  unfold registry PeerRegistry.PeerMap.updatePk PeerRegistry.act
  simp only [performIs,bindOp,bindRet,embedOp,embedIte]
  refine ⟨⟨rk,registers,rfl,rfl⟩,fun r => everyAfterIte.mpr ⟨fun _ => ?_,fun _ => ?_⟩⟩
  · refine ⟨⟨addr,rk,peer,registersLater registers _,rfl,rfl⟩,fun inserted => ?_⟩
    cases inserted with
    | error e => trivial
    | ok guid => exact ⟨trivial,fun _ => trivial⟩
  · refine ⟨⟨addr,rk,peer,registersLater registers _,rfl,rfl⟩,fun updated => ?_⟩
    cases updated <;> trivial

theorem checkedUuid {stored : Peer} {rk : RegisterPk} {ip : String} {verdict : Bool × Bool}
    (passed : PeerRegistry.checkPeer stored rk ip = some verdict) : stored.uuid = [] ∨ stored.uuid = rk.uuid := by
  unfold PeerRegistry.checkPeer at passed
  split at passed
  · rename_i none
    exact .inl (List.isEmpty_iff.mp none)
  · split at passed
    · rename_i same
      exact .inr same
    · contradiction

theorem registerAtGuarded {rk : RegisterPk} {peer : LockPeer} (got : Got lib c addr (.registerPk rk) done)
    (held : Held rk.id done peer) (newGuid : Bytes) (out : Outage) :
    (registry (PeerRegistry.registerAt rk addr newGuid out peer)).EveryAfter (Guard lib c) done := by
  unfold registry PeerRegistry.registerAt PeerRegistry.act
  simp only [performIs,bindOp,bindRet,embedOp]
  refine ⟨trivial,fun stored => ?_⟩
  dsimp only
  cases passed : PeerRegistry.checkPeer stored rk addr.ip.text with
  | none => trivial
  | some verdict =>
    have registers : Registers lib c (done ++ [⟨.registry (.peerRead peer),stored⟩]) addr rk peer :=
      ⟨gotLater got _,heldLater held _,stored,by simp,checkedUuid passed⟩
    have store : ∀ later, (registry (PeerRegistry.PeerMap.updatePk rk.id peer addr rk.uuid rk.pk addr.ip.text newGuid out) >>=
        fun _ => (.ret .ok : Prog Op Resp PeerRegistry.Result)).EveryAfter (Guard lib c)
          (done ++ [⟨.registry (.peerRead peer),stored⟩] ++ later) := fun later =>
      everyAfterBind (updatePkGuarded (registersLater registers later) _ _ _) fun _ _ => trivial
    obtain ⟨changed,ipChanged⟩ := verdict
    refine ⟨trivial,fun r => ?_⟩
    dsimp only
    cases PeerRegistry.countPk r.1 r.2 with
    | none => trivial
    | some regPk =>
      simp only [embedIte,embedOp,embedBind,pureIsRet,embedRet]
      refine ⟨trivial,fun _ => everyAfterIte.mpr ⟨fun _ => ⟨trivial,fun _ => ?_⟩,fun _ => ?_⟩⟩
      · refine everyAfterIte.mpr ⟨fun _ => ?_,fun _ => trivial⟩
        simp only [List.append_assoc]
        rw [← List.append_assoc]
        exact store _
      · refine everyAfterIte.mpr ⟨fun _ => ?_,fun _ => trivial⟩
        rw [List.append_assoc _ [_] [_]]
        exact store _

theorem registerPkGuarded {rk : RegisterPk} (got : Got lib c addr (.registerPk rk) done) (newGuid : Bytes) (out : Outage) :
    (registry (PeerRegistry.registerPkResult rk addr newGuid out)).EveryAfter (Guard lib c) done := by
  have getOr : ∀ done, (registry (PeerRegistry.PeerMap.getOr rk.id out.getPeer)).Along (Guard lib c)
      (fun done peer => Held rk.id done peer) done := by
    intro done
    unfold PeerRegistry.PeerMap.getOr
    rw [PeerPointers.registryBind]
    refine alongBind.mpr (alongMono (fun done found source => ?_) (alongOf (getGuarded _ _ done) (getSource _ _ done)))
    cases found with
    | none => exact ⟨trivial,fun peer => .inr (by simp)⟩
    | some peer => exact .inl (source peer rfl)
  unfold PeerRegistry.registerPkResult
  unfold registry PeerRegistry.act
  simp only [performIs,bindOp,bindRet,embedIte,embedOp,embedBind,pureIsRet,embedRet,everyAfterIte]
  refine ⟨fun _ => trivial,fun _ => ⟨trivial,fun allowed => everyAfterIte.mpr ⟨fun _ => trivial,fun _ => ?_⟩⟩⟩
  have known := gotLater got [⟨.registry (.checkIpBlocker addr.ip.text rk.id),allowed⟩]
  refine everyAfterBindEnds (alongEvery (getOr _)) (endsMono (fun done' peer both => ?_)
    (endsBoth (alongEnds (getOr _)) (endsLonger _ _)))
  obtain ⟨held,later,rfl⟩ := both
  exact registerAtGuarded (gotLater known later) held _ _

/- The signed key of a peer that the message asks for. -/
theorem getPkAlong {m : Message} {version id : String} (reads : Reads lib c conn config m done) (names : keyOf m = some id) :
    (getPk lib config version id draws).Along (Guard lib c) (fun done pk => Vouched lib c done pk) done := by
  unfold getPk
  split
  · exact .inl rfl
  · rename_i sk secret
    refine alongIte.mpr ⟨fun _ => .inl rfl,fun _ => alongBind.mpr ?_⟩
    refine alongMono (fun done' found known => ?_)
      (alongOf (getGuarded _ _ done) (endsBoth (getSource _ _ done) (endsLonger _ _)))
    obtain ⟨source,later,rfl⟩ := known
    cases found with
    | none => exact .inl rfl
    | some peer =>
      refine ⟨trivial,fun p => .inr ⟨conn,config,m,sk,id,peer,p,?_,names,secret,sourceLater (source peer rfl) _,by simp,rfl⟩⟩
      exact readsLater (readsLater reads later) _

theorem answerGuarded {msg : Message} (why : ∀ later route, Guard lib c (done ++ later) (.send route msg)) (target : SocketAddr) :
    (sendToTcp lib msg target).EveryAfter (Guard lib c) done := by
  have sends : (sendToTcp lib msg target).Every fun o => free o = true ∨ ∃ route, o = .send route msg :=
    everySendToTcp (fun _ => .inl rfl) (fun _ => .inl rfl) (fun _ => .inr ⟨_,rfl⟩) fun _ _ => .inl rfl
  refine everyAfterMono (fun done' o known => ?_) (everyAfterLonger (everyAfterOfEvery (fun _ _ here => here) sends done))
  obtain ⟨unbound | ⟨route,rfl⟩,later,rfl⟩ := known
  · exact freeGuard unbound _
  · exact why later route

theorem freePush {msg : Message} (plain : ∀ route, free (.send route msg) = true) (target : SocketAddr) :
    (sendToTcpPeer lib target msg).Every fun o => free o = true :=
  everySendToTcpPeer (fun _ => rfl) (fun _ => plain _) fun _ _ => rfl

/- Whatever a punch request makes hbbs say, it holds no key. -/
theorem punchRequestAlong (ph : PunchHoleRequest) (done : List (Did Op Resp)) :
    (handlePunchHoleRequest lib config key conn ph draws).Along (Guard lib c)
      (fun _ made => ∀ done route, Guard lib c done (.send route made.1)) done := by
  unfold handlePunchHoleRequest act
  simp only [performIs,bindOp,bindRet]
  refine alongIte.mpr ⟨fun _ _ _ => .inr (.inl rfl),fun _ => alongBind.mpr ?_⟩
  refine alongMono (fun done' found _ => ?_) (alongOf (getGuarded _ _ done) (endsAll (fun _ _ => trivial) _ _))
  cases found with
  | none => exact fun _ _ => .inr (.inl rfl)
  | some peer =>
    refine ⟨trivial,fun seen => alongIte.mpr ⟨fun _ _ _ => .inr (.inl rfl),fun _ => ⟨trivial,fun _ => alongBind.mpr ?_⟩⟩⟩
    refine alongMono (fun _ server _ => ⟨trivial,fun always => ?_⟩)
      (alongOf (freeAfter (everyGetRelayServer rfl) _) (endsAll (fun _ _ => trivial) _ _))
    exact alongIte.mpr ⟨fun _ _ _ => trivial,fun _ _ _ => trivial⟩

theorem punchArmGuarded (ph : PunchHoleRequest) (done : List (Did Op Resp)) :
    (handlePunchArm lib config key conn ph draws).EveryAfter (Guard lib c) done := by
  have asked : ∀ done, (handleTcpPunchHoleRequest lib config key conn ph draws).EveryAfter (Guard lib c) done := by
    intro done
    have along : (handlePunchHoleRequest lib config key conn ph draws).Along (Guard lib c)
      (fun _ made => ∀ done route, Guard lib c done (.send route made.1)) done := punchRequestAlong ph done
    refine everyAfterBindEnds (alongEvery along) (endsMono (fun done' made plain => ?_) (alongEnds along))
    obtain ⟨msg,toAddr⟩ := made
    cases toAddr with
    | none => exact answerGuarded (fun _ _ => plain _ _) _
    | some addr => exact ⟨trivial,fun _ => trivial⟩
  have rest : ∀ done, (PunchSessions.remember lib conn.addr ph.id ph.token >>= fun _ =>
      handleTcpPunchHoleRequest lib config key conn ph draws >>= fun _ => (.ret true : Prog Op Resp Bool)).EveryAfter
        (Guard lib c) done :=
    fun done => everyAfterBind (freeAfter (everyAct rfl) done) fun _ _ => everyAfterBind (asked _) fun _ _ => trivial
  unfold handlePunchArm act
  refine everyAfterBind (freeAfter (everyAuthorized (fun _ => rfl) _) done) fun allowed later => ?_
  refine everyAfterIte.mpr ⟨fun _ => trivial,fun _ => ⟨trivial,fun sink => ?_⟩⟩
  cases (sink : Option Sink) with
  | none => exact rest _
  | some sink => exact ⟨trivial,fun _ => rest _⟩

theorem responseArmGuarded {rr : RelayResponse} (reads : Reads lib c conn config (.relayResponse rr) done) :
    (handleResponseArm lib config conn rr draws).EveryAfter (Guard lib c) done := by
  have named : ∀ later, (withPk lib config { rr with socketAddr := [] } draws).Along (Guard lib c)
      (fun done rr => ∀ pk, rr.union = some (.pk pk) → Vouched lib c done pk ∨ PassedOn lib c done pk) (done ++ later) := by
    intro later
    have known := readsLater reads later
    refine alongIte.mpr ⟨fun _ pk same => .inr ⟨conn,config,rr,known,same⟩,fun _ => alongBind.mpr ?_⟩
    refine alongMono (fun done' pk vouched pk' same => ?_) (getPkAlong known rfl)
    cases same
    exact .inl vouched
  unfold handleResponseArm
  refine everyAfterBind (freeAfter (everyPeerInitiated (fun _ => rfl) (fun _ => rfl) rfl (fun _ => rfl) (fun _ _ => rfl)
    fun _ _ => rfl) done) fun _ later => ?_
  refine everyAfterBindEnds (alongEvery (named later)) (endsMono (fun done' rr' carries => ?_) (alongEnds (named later)))
  refine everyAfterBind (freeAfter (everyRelayServerFor rfl) _) fun server more => ?_
  refine answerGuarded ?_ _
  refine fun last route => .inr fun pk same => ?_
  rcases carries pk same with vouched | ⟨conn,config,first,reads,came⟩
  · exact .inl (vouchedLater (vouchedLater vouched more) last)
  · exact .inr ⟨conn,config,first,readsLater (readsLater reads more) last,came⟩

/- The answer to a peer that has punched its hole or given its address carries the peer's signed key. -/
theorem signedGuarded {m : Message} {version id : String} {k : Bytes → Message} {target : SocketAddr}
    (reads : Reads lib c conn config m done) (names : keyOf m = some id)
    (sends : ∀ pk done, Vouched lib c done pk → ∀ route, Guard lib c done (.send route (k pk))) :
    (getPk lib config version id draws >>= fun pk => sendToTcp lib (k pk) target).EveryAfter (Guard lib c) done := by
  have along : (getPk lib config version id draws).Along (Guard lib c) (fun done pk => Vouched lib c done pk) done :=
    getPkAlong reads names
  refine everyAfterBindEnds (alongEvery along) (endsMono (fun done' pk vouched => ?_) (alongEnds along))
  exact answerGuarded (fun later route => sends pk _ (vouchedLater vouched later) route) _

theorem tcpGuarded (bytes : Bytes) (reads : ∀ m, lib.parse bytes = some m → Reads lib c conn config m done) :
    (handleTcp lib config key conn bytes draws).EveryAfter (Guard lib c) done := by
  have tcpPeer : (isTcpPeer lib conn.addr).Every fun o => free o = true := everyIsTcpPeer fun _ => rfl
  have adopts : (adoptSink lib conn).Every fun o => free o = true := everyAdoptSink rfl fun _ => rfl
  unfold handleTcp
  split
  · exact punchArmGuarded _ done
  · exact freeAfter (everyRelayArm (fun _ => rfl) rfl (fun _ _ => rfl) (fun _ => rfl) (fun _ => rfl) fun _ _ => rfl) done
  · exact everyAfterBind (responseArmGuarded (reads _ ‹_›)) fun _ _ => freeAfter tcpPeer _
  · exact everyAfterBind (signedGuarded (reads _ ‹_›) rfl fun _ _ vouched _ => .inr vouched) fun _ _ => freeAfter tcpPeer _
  · exact everyAfterBind (signedGuarded (reads _ ‹_›) rfl fun _ _ vouched _ => .inr vouched) fun _ _ => freeAfter tcpPeer _
  · refine freeAfter (everyBind ?_ fun _ => tcpPeer) done
    exact everyReplyOnConnection rfl (fun _ => rfl) (fun _ => rfl) fun _ _ => rfl
  · refine everyAfterBind (everyAfterIte.mpr ⟨fun _ => trivial,fun _ => everyAfterBind (freeAfter adopts done) fun _ later => ?_⟩)
      fun _ _ => trivial
    refine everyAfterBind (registerPeerGuarded (gotLater (.tcp (reads _ ‹_›) rfl) later)) fun _ more => freeAfter ?_ _
    refine everyBind (freePush (fun _ => rfl) _) fun _ => everyIte.mpr ⟨fun _ => ?_,fun _ => trivial⟩
    exact everyBind (freePush (fun _ => rfl) _) fun _ => trivial
  · refine everyAfterBind (everyAfterIte.mpr ⟨fun _ => trivial,fun _ => everyAfterBind (freeAfter adopts done) fun _ later => ?_⟩)
      fun _ _ => trivial
    refine everyAfterBind (registerPkGuarded (gotLater (.tcp (reads _ ‹_›) rfl) later) _ _) fun _ more => freeAfter ?_ _
    exact everyBind (freePush (fun _ => rfl) _) fun _ => trivial
  · exact freeAfter tcpPeer done

theorem udpGuarded (bytes : Bytes) (done : List (Did Op Resp)) :
    (handleUdp lib config addr bytes draws).EveryAfter (Guard lib (.udp addr bytes draws)) done := by
  unfold handleUdp
  split
  · rename_i parsed
    refine everyAfterIte.mpr ⟨fun _ => everyAfterBind (registerPeerGuarded (.udp rfl parsed)) fun _ later => ?_,fun _ => trivial⟩
    exact ⟨trivial,fun _ => everyAfterIte.mpr ⟨fun _ => ⟨trivial,fun _ => trivial⟩,fun _ => trivial⟩⟩
  · rename_i parsed
    refine everyAfterIte.mpr ⟨fun _ => trivial,fun _ => everyAfterBind (registerPkGuarded (.udp rfl parsed) _ _) fun _ later => ?_⟩
    exact ⟨trivial,fun _ => trivial⟩
  · exact freeAfter (everyAct rfl) _
  · exact everyAfterIte.mpr ⟨fun _ => ⟨trivial,fun _ => trivial⟩,fun _ => trivial⟩
  · exact everyAfterIte.mpr ⟨fun _ => ⟨trivial,fun _ => trivial⟩,fun _ => trivial⟩
  · trivial

theorem turningGuarded {body : Config → Prog Op Resp α} (all : ∀ config done, (body config).EveryAfter (Guard lib c) done) :
    (turning body).EveryAfter (Guard lib c) [] := by
  unfold turning act
  simp only [performIs,bindOp,bindRet]
  exact ⟨trivial,fun config => everyAfterBind (all config _) fun _ _ => ⟨trivial,fun _ => trivial⟩⟩

theorem programGuarded (c : Call) : (program lib key c).EveryAfter (Guard lib c) [] := by
  -- a call that touches no entry and answers no request
  have others : (∀ o, ¬ Performs c (.registry o)) → (∀ route m, ¬ Performs c (.send route m)) →
      (program lib key c).EveryAfter (Guard lib c) [] := by
    intro untouched silent
    refine everyAfterOfEvery (fun done o allowed => ?_) (programPerforms lib key c) []
    cases o with
    | registry o => exact absurd allowed (untouched o)
    | send route m => exact absurd allowed (silent route m)
    | _ => trivial
  cases c with
  | tcp conn frame draws =>
    have closes : ∀ done, (closing lib conn).EveryAfter (Guard lib (.tcp conn frame draws)) done :=
      freeAfter (everyClosing rfl rfl rfl rfl)
    have served : ∀ done, (act (.served conn)).EveryAfter (Guard lib (.tcp conn frame draws)) done := freeAfter (everyAct rfl)
    refine ⟨trivial,fun link => ?_⟩
    cases (link : Option Link) with
    | none => trivial
    | some link =>
      change (serve lib key conn frame draws link).EveryAfter _ _
      unfold serve
      split
      · exact ⟨trivial,fun _ => served _⟩
      · exact closes _
      · rename_i bytes treated
        have handled : ∀ done, ⟨.receive conn (some frame),some link⟩ ∈ done →
            (handleTcp lib link.config key conn bytes draws >>= fun keep =>
              if keep then act (.served conn) else closing lib conn).EveryAfter (Guard lib (.tcp conn frame draws)) done := by
          refine fun done there => everyAfterBind (tcpGuarded bytes fun m parsed => ?_) fun keep later => ?_
          · exact ⟨frame,draws,link,bytes,rfl,there,treated,parsed,rfl⟩
          · split
            · exact served _
            · exact closes _
        split
        · exact ⟨trivial,fun _ => handled _ (by simp)⟩
        · exact handled _ (by simp)
  | udp addr bytes draws => exact turningGuarded fun _ => udpGuarded bytes
  | turn =>
    refine everyAfterOfEvery (fun done o allowed => ?_) (programPerforms lib key .turn) []
    cases o with
    | registry o => exact absurd allowed fun wrong => by cases wrong
    | send route m => cases m <;> first | trivial | exact .inl rfl
    | _ => trivial
  | accept conn secret publicKey =>
    refine freeAfter ?_ []
    unfold program
    refine everyBind (everyTurning rfl rfl fun _ => trivial) fun config => ⟨rfl,fun _ => ?_⟩
    have rest : (act (.served conn)).Every fun o => free o = true := everyAct rfl
    dsimp only
    refine everyIte.mpr ⟨fun _ => ?_,fun _ => rest⟩
    cases config.inner.sk with
    | none => exact rest
    | some sk => exact ⟨rfl,fun _ => ⟨rfl,fun _ => rest⟩⟩
  | nat addr bytes =>
    have listed : ∀ peers, (onlineList peers).Every fun o => free o = true := by
      intro peers
      induction peers with
      | nil => trivial
      | cons id rest ih =>
        have later : ∀ online : Bool, (onlineList rest >>= fun others =>
            (.ret (online :: others) : Prog Op Resp (List Bool))).Every fun o => free o = true := fun online =>
              everyBind ih fun _ => trivial
        unfold onlineList
        refine everyBind (p := registry (PeerRegistry.act (.mapRead id))) ⟨rfl,fun _ => trivial⟩ fun peer => ?_
        cases (peer : Option LockPeer) with
        | none => exact later false
        | some peer => exact ⟨rfl,fun _ => later _⟩
    refine freeAfter ?_ []
    unfold program
    refine everyBind (everyTurning rfl rfl fun _ => trivial) fun config => everyIte.mpr ⟨fun _ => ?_,fun _ => trivial⟩
    split
    · exact everyAct rfl
    · exact everyBind (listed _) fun _ => everyAct rfl
    · trivial
  | testHbbs addr => exact freeAfter (everyAct rfl) []
  | close conn => exact ⟨trivial,fun _ => freeAfter (everyClosing rfl rfl rfl rfl) _⟩
  | console addr cmd => exact others (fun _ wrong => by cases cmd <;> cases wrong) fun _ _ wrong => by cases cmd <;> cases wrong
  | _ => exact others (fun _ wrong => by cases wrong) fun _ _ wrong => by cases wrong

end Programs

/- Where an operation places a peer. -/
def places : Did Op Resp → Option (LockPeer × SocketAddr)
  | ⟨.registry (.peerUpdate peer addr _ _ _),_⟩ => some (peer,addr)
  | ⟨.registry (.peerRefresh peer addr),requestPk⟩ => if requestPk then none else some (peer,addr)
  | _ => none

/- The key that an operation stores with a peer. -/
def keys : Op → Option (LockPeer × Bytes)
  | .registry (.peerUpdate peer _ _ pk _) => some (peer,pk)
  | _ => none

def cell (s : Server) (n : Nat) : Option Peer := s.registry.heap[n]?

/- Whence an entry has its place and its key after an operation, said once. -/
inductive Effect (expired : Nat → Nat) (s : Server) (d : Did Op Resp) (n : Nat) (p : Peer) : Prop where
  | kept {q} (old : cell s n = some q) (place : p.socketAddr = q.socketAddr ∧ p.lastRegTime = q.lastRegTime) (key : p.pk = q.pk)
      (apart : ∀ peer addr, places d = some (peer,addr) → peer.number ≠ n)
      (spared : ∀ peer pk, keys d.1 = some (peer,pk) → peer.number ≠ n)
  | refreshed {q peer addr} (old : cell s n = some q) (placed : places d = some (peer,addr)) (number : peer.number = n)
      (place : p.socketAddr = addr ∧ p.lastRegTime = s.registry.now) (key : p.pk = q.pk) (spared : keys d.1 = none)
  | updated {peer addr pk} (placed : places d = some (peer,addr)) (keyed : keys d.1 = some (peer,pk)) (number : peer.number = n)
      (place : p.socketAddr = addr ∧ p.lastRegTime = s.registry.now) (key : p.pk = pk)
  | created {peer} (new : PeerUnseen.allocated s d = some peer) (number : peer.number = n)
      (place : p.socketAddr = PeerRegistry.unset ∧ p.lastRegTime = expired s.registry.now)
      (key : p.pk = [] ∨ ∃ row, d.1 = .registry (.insertLoaded row peer.id) ∧ p.pk = row.pk)

section Steps
variable {lib : Library} {expired : Nat → Nat} {n : Nat} {p : Peer}

theorem amendedCell {r : Registry} {ref : LockPeer} {f : Peer → Peer} (there : (r.amend ref f).heap[n]? = some p) :
    (ref.number = n ∧ ∃ q, r.heap[n]? = some q ∧ p = f q) ∨ (ref.number ≠ n ∧ r.heap[n]? = some p) := by
  unfold Registry.amend at there
  rw [List.getElem?_modify] at there
  obtain ⟨q,old,rfl⟩ := Option.map_eq_some_iff.mp there
  split
  · exact .inl ⟨‹_›,q,old,rfl⟩
  · exact .inr ⟨‹_›,old⟩

theorem allocatedCell {r : Registry} {id : String} {fresh : Peer} (there : (r.allocate id fresh).2.heap[n]? = some p) :
    r.heap[n]? = some p ∨ (n = r.heap.length ∧ p = fresh) := by
  have there : (r.heap ++ [fresh])[n]? = some p := there
  rcases Nat.lt_or_ge n r.heap.length with less | more
  · rw [List.getElem?_append_left less] at there
    exact .inl there
  · rw [List.getElem?_append_right more] at there
    obtain ⟨bound,same⟩ := List.getElem?_eq_some_iff.mp there
    rw [List.length_singleton] at bound
    refine .inr ⟨by omega,?_⟩
    simpa using same.symm

theorem effect (o : Op) (s : Server) (there : cell (exec lib expired o s).2 n = some p) :
    Effect expired s ⟨o,(exec lib expired o s).1⟩ n p := by
  unfold cell at there
  rw [execRegistry] at there
  have same : (∀ peer addr, places ⟨o,(exec lib expired o s).1⟩ ≠ some (peer,addr)) → (∀ peer pk, keys o ≠ some (peer,pk)) →
      s.registry.heap[n]? = some p → Effect expired s ⟨o,(exec lib expired o s).1⟩ n p :=
    fun unplaced unkeyed old => .kept old ⟨rfl,rfl⟩ rfl (fun peer addr wrong => absurd wrong (unplaced peer addr))
      fun peer pk wrong => absurd wrong (unkeyed peer pk)
  cases o with
  | registry o =>
    cases o with
    | insertLoaded row id =>
      rcases allocatedCell there with old | ⟨rfl,rfl⟩
      · exact same (fun _ _ wrong => by cases wrong) (fun _ _ wrong => by cases wrong) old
      · exact .created rfl rfl ⟨rfl,rfl⟩ (.inr ⟨row,rfl,rfl⟩)
    | getOrInsert id =>
      simp only [registryAfter,PeerRegistry.exec] at there
      split at there
      · exact same (fun _ _ wrong => by cases wrong) (fun _ _ wrong => by cases wrong) there
      · rename_i none
        rcases allocatedCell there with old | ⟨rfl,rfl⟩
        · exact same (fun _ _ wrong => by cases wrong) (fun _ _ wrong => by cases wrong) old
        · refine @Effect.created _ _ _ _ _ ⟨id,s.registry.heap.length⟩ ?_ rfl ⟨rfl,rfl⟩ (.inl rfl)
          simp only [PeerUnseen.allocated,PeerPointers.entry,none,exec,PeerRegistry.exec]
          rfl
    | regPkWrite peer regPk =>
      rcases amendedCell there with ⟨_,q,old,rfl⟩ | ⟨_,old⟩
      · exact .kept old ⟨rfl,rfl⟩ rfl (fun _ _ wrong => by cases wrong) fun _ _ wrong => by cases wrong
      · exact same (fun _ _ wrong => by cases wrong) (fun _ _ wrong => by cases wrong) old
    | guidWrite peer guid =>
      rcases amendedCell there with ⟨_,q,old,rfl⟩ | ⟨_,old⟩
      · exact .kept old ⟨rfl,rfl⟩ rfl (fun _ _ wrong => by cases wrong) fun _ _ wrong => by cases wrong
      · exact same (fun _ _ wrong => by cases wrong) (fun _ _ wrong => by cases wrong) old
    | peerUpdate peer addr uuid pk ip =>
      rcases amendedCell there with ⟨here,q,old,rfl⟩ | ⟨apart,old⟩
      · exact .updated rfl rfl here ⟨rfl,rfl⟩ rfl
      · refine .kept old ⟨rfl,rfl⟩ rfl (fun _ _ placed => ?_) fun _ _ keyed => ?_
        · cases placed
          exact apart
        · cases keyed
          exact apart
    | peerRefresh peer addr =>
      simp only [registryAfter,PeerRegistry.exec] at there
      cases ask : PeerRegistry.requestPk (s.registry.peer peer) addr.ip with
      | true =>
        rw [if_pos ask] at there
        refine same (fun _ _ wrong => ?_) (fun _ _ wrong => by cases wrong) there
        simp [places,exec,PeerRegistry.exec,ask] at wrong
      | false =>
        rw [if_neg (by simp [ask])] at there
        have placed : places ⟨.registry (.peerRefresh peer addr),(exec lib expired (.registry (.peerRefresh peer addr)) s).1⟩ =
            some (peer,addr) := by simp [places,exec,PeerRegistry.exec,ask]
        rcases amendedCell there with ⟨here,q,old,rfl⟩ | ⟨apart,old⟩
        · exact .refreshed old placed here ⟨rfl,rfl⟩ rfl rfl
        · refine .kept old ⟨rfl,rfl⟩ rfl (fun _ _ other => ?_) fun _ _ wrong => by cases wrong
          cases placed.symm.trans other
          exact apart
    | dbInsertPeer id uuid pk info guid fails =>
      refine same (fun _ _ wrong => by cases wrong) (fun _ _ wrong => by cases wrong) ?_
      simp only [registryAfter,PeerRegistry.exec] at there
      split at there
      · exact there
      · split at there <;> exact there
    | dbUpdatePk guid id pk info fails =>
      refine same (fun _ _ wrong => by cases wrong) (fun _ _ wrong => by cases wrong) ?_
      simp only [registryAfter,PeerRegistry.exec] at there
      split at there
      · exact there
      · split at there <;> exact there
    | _ => exact same (fun _ _ wrong => by cases wrong) (fun _ _ wrong => by cases wrong) there
  | _ => exact same (fun _ _ wrong => by cases wrong) (fun _ _ wrong => by cases wrong) there

/- The key that was last stored with a peer. -/
theorem keyTracked (key : String) : Tracked (machine lib expired key)
    (fun s (b : Nat × Bytes) => ∃ p, cell s b.1 = some p ∧ p.pk = b.2)
    (fun d s b => ∃ peer, peer.number = b.1 ∧ (keys d.1 = some (peer,b.2) ∨ PeerUnseen.allocated s d = some peer ∧
      (b.2 = [] ∨ ∃ row, d.1 = .registry (.insertLoaded row peer.id) ∧ b.2 = row.pk)))
    (fun d b => ∃ peer pk, keys d.1 = some (peer,pk) ∧ peer.number = b.1) where
  op o s b := by
    obtain ⟨n,pk⟩ := b
    rintro ⟨p,there,rfl⟩
    cases effect o s there with
    | kept old place key apart spared =>
      refine .inl ⟨⟨_,old,key.symm⟩,?_⟩
      rintro ⟨peer,pk,keyed,same⟩
      exact spared peer pk keyed same
    | refreshed old placed number place key spared =>
      refine .inl ⟨⟨_,old,key.symm⟩,?_⟩
      rintro ⟨peer,pk,keyed,_⟩
      cases spared.symm.trans keyed
    | updated placed keyed number place key => exact .inr ⟨_,number,.inl (by rw [key]; exact keyed)⟩
    | created new number place key => exact .inr ⟨_,number,.inr ⟨new,key⟩⟩
  env e s b := by
    rintro ⟨p,there,same⟩
    exact ⟨p,by cases e <;> exact there,same⟩

end Steps

/- The task is handling this message, which came from that address. -/
inductive Heard (lib : Library) (w : World) (e : Event Op Resp Call Server) (addr : SocketAddr) (m : Message) : Prop where
  | tcp {conn config} (handles : HandlerAuthority.Handles lib w e conn config m) (own : addr = conn.addr)
  | udp {bytes draws} (call : e.call = .udp addr bytes draws) (parsed : lib.parse bytes = some m)

/- A RegisterPk for the peer whose uuid was found to be that of the entry, if the entry had one. -/
structure Accepted (lib : Library) (w : World) (e : Event Op Resp Call Server) (peer : LockPeer) (addr : SocketAddr)
    (rk : RegisterPk) : Prop where
  heard : Heard lib w e addr (.registerPk rk)
  names : rk.id = peer.id
  agrees : ∃ a, HandlerAuthority.Earlier w e a ∧
    ((a.before.registry.peer peer).uuid = [] ∨ (a.before.registry.peer peer).uuid = rk.uuid)

section Runs
variable {lib : Library} {expired : Nat → Nat} {key : String} {ok : World → Act Call Env → Prop} {s : Server} {w : World}
variable {e : Event Op Resp Call Server} {done : List (Did Op Resp)}

theorem heardOf (past : ∀ d ∈ done, ∃ a ∈ w.log, a.task = e.task ∧ a.pos < e.pos ∧ a.did = d) {addr : SocketAddr} {m : Message}
    (got : Got lib e.call addr m done) : Heard lib w e addr m := by
  cases got with
  | tcp reads own => exact .tcp (HandlerAuthority.handlesOf past reads) own
  | udp call parsed => exact .udp call parsed

theorem bornLater {v : World} (inside : ∀ a ∈ v.log, a ∈ w.log) {peer : LockPeer} (born : PeerUnseen.Born v peer) :
    PeerUnseen.Born w peer := by
  obtain ⟨b,member,new⟩ := born
  exact ⟨b,inside b member,new⟩

theorem usedEvent (empty : s.registry.map = ∅) (reach : (machine lib expired key).Reach ok s w) (member : e ∈ w.log)
    {peer : LockPeer} (uses : peer ∈ PeerPointers.used e.did.1) :
    PeerUnseen.Born w peer ∧ peer.number < e.before.registry.heap.length := by
  obtain ⟨v,reached,_,shared,history,_,_,next,found⟩ := Machine.moment reach member
  have known := PeerUnseen.remembered empty reached
  have born := PeerUnseen.usedBorn known reached found uses
  rw [← shared]
  exact ⟨bornLater (fun a inside => ((history a).mp inside).1) born,known.short peer born⟩

/- The entry that was found or made for an id is that of the id. -/
theorem heldNamed (empty : s.registry.map = ∅) (reach : (machine lib expired key).Reach ok s w)
    (past : ∀ d ∈ done, ∃ a ∈ w.log, a.task = e.task ∧ a.pos < e.pos ∧ a.did = d) {id : String} {peer : LockPeer}
    (held : Held id done peer) : peer.id = id := by
  rcases held with source | made
  · exact HandlerAuthority.sourceNamed empty reach past source
  · obtain ⟨a,inside,_,_,did⟩ := past _ made
    obtain ⟨v,reached,_,shared,_⟩ := Machine.moment reach inside
    have same : peer = (PeerRegistry.exec expired (.getOrInsert id) a.before.registry).1 := Machine.responseIs reach inside did
    rw [← shared] at same
    simp only [PeerRegistry.exec] at same
    split at same
    · rename_i ref found
      rw [same]
      exact (PeerUnseen.remembered empty reached).named id ref found
    · rw [same]
      rfl

theorem usedCell {s : Server} {peer : LockPeer} (short : peer.number < s.registry.heap.length) :
    cell s peer.number = some (s.registry.peer peer) := by
  unfold cell Registry.peer
  rw [List.getD_eq_getElem?_getD,List.getElem?_eq_getElem short]
  rfl

theorem noCell (fresh : s.registry.heap = []) {n : Nat} {p : Peer} : cell s n ≠ some p := by
  unfold cell
  rw [fresh]
  nofun

/- Two entries in use under one number are the same. -/
theorem samePeer (empty : s.registry.map = ∅) (reach : (machine lib expired key).Reach ok s w) {peer peer' : LockPeer}
    (born : PeerUnseen.Born w peer) {a : Event Op Resp Call Server} (inside : a ∈ w.log) (number : peer'.number = peer.number)
    (touched : peer' ∈ PeerPointers.used a.did.1 ∨ PeerUnseen.allocated a.before a.did = some peer') : peer' = peer := by
  refine (PeerUnseen.remembered empty reach).apart peer' peer ?_ born number
  rcases touched with uses | new
  · exact (usedEvent empty reach inside uses).1
  · exact ⟨a,inside,new⟩

theorem keyedUses {o : Op} {peer : LockPeer} {pk : Bytes} (keyed : keys o = some (peer,pk)) : peer ∈ PeerPointers.used o := by
  unfold keys at keyed
  split at keyed
  · cases keyed
    exact .head _
  · contradiction

theorem acceptedOf (empty : s.registry.map = ∅) (reach : (machine lib expired key).Reach ok s w)
    (past : ∀ d ∈ done, ∃ a ∈ w.log, a.task = e.task ∧ a.pos < e.pos ∧ a.did = d) {addr : SocketAddr} {rk : RegisterPk}
    {peer : LockPeer} (registers : Registers lib e.call done addr rk peer) : Accepted lib w e peer addr rk where
  heard := heardOf past registers.got
  names := (heldNamed empty reach past registers.held).symm
  agrees := by
    obtain ⟨stored,read,agrees⟩ := registers.checked
    obtain ⟨a,inside,task,less,did⟩ := past _ read
    have found : stored = a.before.registry.peer peer := Machine.responseIs reach inside did
    rw [found] at agrees
    exact ⟨a,⟨inside,task,less⟩,agrees⟩

end Runs

end OpenuuServer.PeerProvenance
