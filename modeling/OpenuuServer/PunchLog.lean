import OpenuuServer.HandlerAuthority
import OpenuuServer.RecentLog

/-! PUNCH_REQS, the log of punch requests that reached a peer who was online. A request that one of the
last thirty entries has recorded within the minute is left out; the console can clear the log. -/
namespace OpenuuServer.PunchLog
open AtomicProgram HistoryFolds RecentLog RendezvousMessages RendezvousServer RendezvousPrograms
open HandlerAuthority (Reads Allowed Entitled Earlier recentlySeen readsLater allowedLater)
open PeerRegistry (Bytes SocketAddr LockPeer)
open PeerUnseen (Source)

/- PUNCH_REQ_DEDUPE_SEC in nanoseconds, and how far back the log is searched. -/
def dedupe : Nat := 60000000000

def tail : Nat := 30

def pair (x : PunchReqEntry) : String × String := (x.fromIp,x.toId)

theorem duplicateSaid (now : Nat) (fromIp toId : String) (reqs : List PunchReqEntry) :
    duplicate now fromIp toId reqs = said PunchReqEntry.tm pair tail dedupe now (fromIp,toId) reqs := by
  have same : (fun e : PunchReqEntry => decide (e.fromIp = fromIp) && decide (e.toId = toId)) = fun e => decide (pair e = (fromIp,toId)) := by
    funext e
    simp [pair]
  have young : ∀ x : PunchReqEntry, PeerRegistry.elapsedSecs now x.tm < 60 ↔ now - x.tm < dedupe := by
    intro x
    unfold PeerRegistry.elapsedSecs dedupe
    omega
  unfold duplicate said tail
  rw [same]
  cases (reqs.reverse.take 30).find? fun e => decide (pair e = (fromIp,toId)) with
  | none => rfl
  | some x => exact decide_eq_decide.mpr (young x)

def reqsAfter (d : Did Op Resp) (s : Server) (reqs : List PunchReqEntry) : List PunchReqEntry :=
  match d.1 with
  | .recordPunch fromIp toIp toId =>
    note PunchReqEntry.tm pair tail dedupe s.registry.now ⟨s.registry.now,fromIp,toIp,toId⟩ reqs
  | .clearPunchReqs => []
  | _ => reqs

/- The operations other than recording a punch request. -/
def unrecorded : Op → Bool
  | .recordPunch _ _ _ => false
  | _ => true

/- A punch request is recorded for a session that was found alive and a peer that was just found online. -/
def Guard (lib : Library) (key : String) (c : Call) (done : List (Did Op Resp)) : Op → Prop
  | .recordPunch fromIp toIp toId => ∃ conn config ph peer elapsed addr, Reads lib c conn config (.punchHoleRequest ph) done ∧
    Allowed lib ph.token done ∧ (key = "" ∨ ph.licenceKey = key) ∧ Source ph.id done peer ∧
    ⟨.lastSeen peer,(elapsed,addr)⟩ ∈ done ∧ elapsed < 30000 ∧ fromIp = (lib.tryIntoV4 conn.addr).ip.text ∧
    toIp = (lib.tryIntoV4 addr).ip.text ∧ toId = ph.id
  | _ => True

section Programs
variable {lib : Library} {key : String} {conn : Conn} {config : Config} {draws : Draws} {c : Call} {α : Type}

theorem unrecordedAfter {p : Prog Op Resp α} (all : p.Every fun o => unrecorded o = true) (done : List (Did Op Resp)) :
    p.EveryAfter (Guard lib key c) done := by
  refine everyAfterOfEvery (fun done o free => ?_) all done
  cases o with
  | recordPunch fromIp toIp toId => cases free
  | _ => trivial

theorem unrecordedAnswer (msg : Message) (addr : SocketAddr) : (sendToTcp lib msg addr).Every fun o => unrecorded o = true :=
  everySendToTcp (fun _ => rfl) (fun _ => rfl) (fun _ => rfl) fun _ _ => rfl

theorem unrecordedReply (msg : Message) : (replyOnConnection lib conn msg).Every fun o => unrecorded o = true :=
  everyReplyOnConnection rfl (fun _ => rfl) (fun _ => rfl) fun _ _ => rfl

theorem unrecordedPeer (addr : SocketAddr) (msg : Message) : (sendToTcpPeer lib addr msg).Every fun o => unrecorded o = true :=
  everySendToTcpPeer (fun _ => rfl) (fun _ => rfl) fun _ _ => rfl

theorem unrecordedResponseArm (rr : RelayResponse) :
    (handleResponseArm lib config conn rr draws).Every fun o => unrecorded o = true := by
  have named : ∀ rr, (withPk lib config rr draws).Every fun o => unrecorded o = true := fun rr =>
    everyIte.mpr ⟨fun _ => trivial,fun _ => everyBind (everyGetPk (fun _ => rfl) _ _) fun _ => trivial⟩
  have answered : ∀ controller, (answerPeerInitiatedRelay lib rr controller conn draws).Every fun o => unrecorded o = true :=
    fun _ => everyPeerInitiated (fun _ => rfl) (fun _ => rfl) rfl (fun _ => rfl) (fun _ _ => rfl) fun _ _ => rfl
  exact everyBind (answered _) fun _ => everyBind (named _) fun rr => everyBind (everyRelayServerFor rfl) fun _ => unrecordedAnswer _ _

theorem punchRequestGuarded (ph : PunchHoleRequest) {done : List (Did Op Resp)}
    (reads : Reads lib c conn config (.punchHoleRequest ph) done) (allowed : Allowed lib ph.token done) :
    (handlePunchHoleRequest lib config key conn ph draws).EveryAfter (Guard lib key c) done := by
  unfold handlePunchHoleRequest act
  simp only [performIs,bindOp,bindRet]
  refine everyAfterIte.mpr ⟨fun _ => trivial,fun licensed => ?_⟩
  have licence : key = "" ∨ ph.licenceKey = key := by
    by_cases same : ph.licenceKey = key
    · exact .inr same
    · simpa [same] using licensed
  refine everyAfterBindEnds (unrecordedAfter (everyRegistry (fun _ => rfl) _) done) ?_
  refine endsMono (fun done' peer known => ?_)
    (endsBoth (PeerUnseen.getSource ph.id draws.out.getPeer done) (endsLonger _ done))
  obtain ⟨source,later,rfl⟩ := known
  cases peer with
  | none => trivial
  | some peer =>
    refine ⟨trivial,fun seen => everyAfterIte.mpr ⟨fun _ => trivial,fun recent => ⟨?_,fun _ => ?_⟩⟩⟩
    · refine ⟨conn,config,ph,peer,seen.1,seen.2,?_,?_,licence,?_,by simp,Nat.not_le.mp recent,rfl,rfl,rfl⟩
      · exact readsLater (readsLater reads later) _
      · exact allowedLater (allowedLater allowed later) _
      · exact (source peer rfl).imp (List.mem_append_left _) fun ⟨row,there⟩ => ⟨row,List.mem_append_left _ there⟩
    · refine unrecordedAfter (everyBind (everyGetRelayServer rfl) fun server => ?_) _
      exact ⟨rfl,fun always => everyIte.mpr ⟨fun _ => trivial,fun _ => trivial⟩⟩

theorem punchArmGuarded (ph : PunchHoleRequest) {done : List (Did Op Resp)}
    (reads : Reads lib c conn config (.punchHoleRequest ph) done) :
    (handlePunchArm lib config key conn ph draws).EveryAfter (Guard lib key c) done := by
  have asked : ∀ done, Reads lib c conn config (.punchHoleRequest ph) done → Allowed lib ph.token done →
      (handleTcpPunchHoleRequest lib config key conn ph draws >>= fun _ => (.ret true : Prog Op Resp Bool)).EveryAfter
        (Guard lib key c) done := by
    intro done reads allowed
    refine everyAfterBind (everyAfterBind (punchRequestGuarded ph reads allowed) fun made later => ?_) fun _ _ => trivial
    obtain ⟨msg,toAddr⟩ := made
    cases toAddr with
    | none => exact unrecordedAfter (unrecordedAnswer msg conn.addr) _
    | some addr => exact ⟨trivial,fun _ => trivial⟩
  unfold handlePunchArm act
  refine everyAfterBindEnds (unrecordedAfter (everyAuthorized (fun _ => rfl) _) done) ?_
  refine endsMono (fun done' allowed known => ?_) (endsBoth (HandlerAuthority.authorizedEnds ph.token done) (endsLonger _ done))
  obtain ⟨allows,later,rfl⟩ := known
  refine everyAfterIte.mpr ⟨fun _ => trivial,fun admitted => ⟨trivial,fun sink => ?_⟩⟩
  have known := readsLater (readsLater reads later) [(⟨.takeSink conn,sink⟩ : Did Op Resp)]
  have live := allowedLater (allows (by simpa using admitted)) [(⟨.takeSink conn,sink⟩ : Did Op Resp)]
  cases (sink : Option Sink) with
  | none => exact ⟨trivial,fun _ => asked _ (readsLater known _) (allowedLater live _)⟩
  | some sink =>
    exact ⟨trivial,fun _ => ⟨trivial,fun _ => asked _ (readsLater (readsLater known _) _) (allowedLater (allowedLater live _) _)⟩⟩

theorem tcpGuarded (bytes : Bytes) {done : List (Did Op Resp)} (reads : ∀ m, lib.parse bytes = some m → Reads lib c conn config m done) :
    (handleTcp lib config key conn bytes draws).EveryAfter (Guard lib key c) done := by
  have tcpPeer : (isTcpPeer lib conn.addr).Every fun o => unrecorded o = true := everyIsTcpPeer fun _ => rfl
  have pk : ∀ version id, (getPk lib config version id draws).Every fun o => unrecorded o = true := everyGetPk fun _ => rfl
  have adopts : (adoptSink lib conn).Every fun o => unrecorded o = true := everyAdoptSink rfl fun _ => rfl
  have relays : ∀ rf, (handleRelayArm lib conn rf draws).Every fun o => unrecorded o = true :=
    fun _ => everyRelayArm (fun _ => rfl) rfl (fun _ _ => rfl) (fun _ => rfl) (fun _ => rfl) fun _ _ => rfl
  unfold handleTcp
  split
  · exact punchArmGuarded _ (reads _ ‹_›)
  · exact unrecordedAfter (relays _) done
  · exact unrecordedAfter (everyBind (unrecordedResponseArm _) fun _ => tcpPeer) done
  · exact unrecordedAfter (everyBind (everyBind (pk _ _) fun _ => unrecordedAnswer _ _) fun _ => tcpPeer) done
  · exact unrecordedAfter (everyBind (everyBind (pk _ _) fun _ => unrecordedAnswer _ _) fun _ => tcpPeer) done
  · exact unrecordedAfter (everyBind (unrecordedReply _) fun _ => tcpPeer) done
  · refine unrecordedAfter (everyBind (k := fun _ => .ret true) ?_ fun _ => trivial) done
    refine everyIte.mpr ⟨fun _ => trivial,fun _ => everyBind adopts fun _ => everyBind (everyRegistry (fun _ => rfl) _) fun _ => ?_⟩
    exact everyBind (unrecordedPeer _ _) fun _ => everyIte.mpr
      ⟨fun _ => everyBind (unrecordedPeer _ _) fun _ => trivial,fun _ => trivial⟩
  · refine unrecordedAfter (everyBind (k := fun _ => .ret true) ?_ fun _ => trivial) done
    refine everyIte.mpr ⟨fun _ => trivial,fun _ => everyBind adopts fun _ => everyBind (everyRegistry (fun _ => rfl) _) fun _ => ?_⟩
    exact everyBind (unrecordedPeer _ _) fun _ => trivial
  · exact unrecordedAfter tcpPeer done

theorem programGuarded (c : Call) : (program lib key c).EveryAfter (Guard lib key c) [] := by
  have others : (∀ fromIp toIp toId, ¬ Performs c (.recordPunch fromIp toIp toId)) →
      (program lib key c).EveryAfter (Guard lib key c) [] := by
    intro never
    refine everyAfterOfEvery (fun _ o allowed => ?_) (programPerforms lib key c) []
    cases o with
    | recordPunch fromIp toIp toId => exact absurd allowed (never fromIp toIp toId)
    | _ => trivial
  cases c with
  | tcp conn frame draws =>
    have closes : ∀ done, (closing lib conn).EveryAfter (Guard lib key (.tcp conn frame draws)) done :=
      unrecordedAfter (everyClosing rfl rfl rfl rfl)
    have served : ∀ done, (act (.served conn)).EveryAfter (Guard lib key (.tcp conn frame draws)) done :=
      unrecordedAfter (everyAct rfl)
    refine ⟨trivial,fun link => ?_⟩
    cases (link : Option Link) with
    | none => trivial
    | some link =>
      change (serve lib key conn frame draws link).EveryAfter _ _
      unfold serve
      split
      · exact ⟨trivial,fun _ => served _⟩
      · exact closes _
      · rename_i bytes treated
        have handled : ∀ done, ⟨.receive conn (some frame),some link⟩ ∈ done →
            (handleTcp lib link.config key conn bytes draws >>= fun keep =>
              if keep then act (.served conn) else closing lib conn).EveryAfter (Guard lib key (.tcp conn frame draws)) done := by
          refine fun done there => everyAfterBind (tcpGuarded bytes fun m parsed => ?_) fun keep later => ?_
          · exact ⟨frame,draws,link,bytes,rfl,there,treated,parsed,rfl⟩
          · split
            · exact served _
            · exact closes _
        split
        · exact ⟨trivial,fun _ => handled _ (by simp)⟩
        · exact handled _ (by simp)
  | console addr cmd =>
    cases cmd with
    | testGeo => exact others fun _ _ _ wrong => wrong
    | _ => exact others fun _ _ _ wrong => by cases wrong
  | close conn => exact others fun _ _ _ wrong => by cases wrong
  | relayCheck reachable => exact others fun _ _ _ wrong => wrong
  | _ => exact others fun _ _ _ wrong => wrong

end Programs

/- The request was made in a session found alive, by its message on a connection, for a peer that was just
found online where the entry says. -/
def Requested (lib : Library) (key : String) (w : World) (e : Event Op Resp Call Server) (fromIp toIp toId : String) : Prop :=
  ∃ conn config ph, Entitled lib w e conn config (.punchHoleRequest ph) ph.token ∧ (key = "" ∨ ph.licenceKey = key) ∧
    fromIp = (lib.tryIntoV4 conn.addr).ip.text ∧ toId = ph.id ∧ ∃ a peer, Earlier w e a ∧ peer.id = ph.id ∧
      recentlySeen a.before peer ∧ toIp = (lib.tryIntoV4 (a.before.registry.peer peer).socketAddr).ip.text

/- The log was not cleared since. -/
def Uncleared (w : World) (e : Event Op Resp Call Server) : Prop := ∀ a ∈ w.log, e.pos < a.pos → a.did.1 ≠ .clearPunchReqs

/- What an operator can rely on when the punch requests are listed. -/
structure Listed (lib : Library) (key : String) (w : World) : Prop where
  kept : Kept PunchReqEntry.tm pair tail dedupe w.shared.registry.now w.shared.punchReqs
  sound : ∀ x ∈ w.shared.punchReqs, ∃ e ∈ w.log, e.did.1 = .recordPunch x.fromIp x.toIp x.toId ∧
    x.tm = e.before.registry.now ∧ Requested lib key w e x.fromIp x.toIp x.toId ∧ Uncleared w e
  complete : ∀ e ∈ w.log, ∀ fromIp toIp toId, e.did.1 = .recordPunch fromIp toIp toId → Uncleared w e →
    ∃ x ∈ w.shared.punchReqs, pair x = (fromIp,toId) ∧ x.tm ≤ e.before.registry.now ∧ e.before.registry.now < x.tm + dedupe

section Runs
variable {lib : Library} {expired : Nat → Nat} {key : String} {ok : World → Act Call Env → Prop} {s : Server} {w : World}

theorem reqsRecorded : Recorded (machine lib expired key) Server.punchReqs reqsAfter where
  op o s := by
    cases o with
    | recordPunch fromIp toIp toId =>
      simp only [machine,exec,reqsAfter,note,duplicateSaid]
      rw [show pair ⟨s.registry.now,fromIp,toIp,toId⟩ = (fromIp,toId) from rfl]
      split <;> rfl
    | _ =>
      simp only [machine,exec,reqsAfter,Server.relink]
      repeat' split
      all_goals rfl
  env e s := by cases e <;> rfl

theorem reqsExec (o : Op) (s : Server) :
    (exec lib expired o s).2.punchReqs = reqsAfter ⟨o,(exec lib expired o s).1⟩ s s.punchReqs :=
  (reqsRecorded : Recorded (machine lib expired "") _ _).op o s

theorem runKept (empty : s.punchReqs = []) (reach : (machine lib expired key).Reach ok s w) :
    Kept PunchReqEntry.tm pair tail dedupe w.shared.registry.now w.shared.punchReqs := by
  refine Machine.invariant (I := fun w => Kept PunchReqEntry.tm pair tail dedupe w.shared.registry.now w.shared.punchReqs)
    ?_ ?_ ?_ ?_ reach
  · show Kept _ _ _ _ s.registry.now s.punchReqs
    rw [empty]
    exact keptNil _ _ _ _ _
  · exact fun w c _ _ ih => ih
  · intro w i c o next _ _ _ _ ih
    show Kept _ _ _ _ (exec lib expired o w.shared).2.registry.now (exec lib expired o w.shared).2.punchReqs
    rw [PeerUnseen.nowAfter,reqsExec]
    unfold reqsAfter
    split
    · exact keptNote ih rfl
    · exact keptNil _ _ _ _ _
    · exact ih
  · intro w e _ _ ih
    cases e with
    | tick ns => exact keptLater ih (Nat.le_add_right _ _)
    | seconds n => exact ih

end Runs

end OpenuuServer.PunchLog
