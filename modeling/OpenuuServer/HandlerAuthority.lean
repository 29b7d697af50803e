import OpenuuServer.AccountFacts
import OpenuuServer.AccountTickets
import OpenuuServer.ExpiringMap
import OpenuuServer.HistoryFolds
import OpenuuServer.PeerUnseen
import OpenuuServer.RelayForcing

/-! On whose authority hbbs summons peers and mints tickets. A message on a connection is acted on once
its token is that of a live session; a token that was let in with a punch request is remembered for a
minute, and pays for the ticket when the peer then starts the relay itself. -/
namespace OpenuuServer.HandlerAuthority
open AtomicProgram RendezvousMessages RendezvousServer RendezvousPrograms
open PeerRegistry (Bytes SocketAddr LockPeer)
open PeerUnseen (Source)
open RelayForcing (Asked)
open AccountTickets (SessionLive)

/- The task handles this message of the connection. -/
def Reads (lib : Library) (c : Call) (conn : Conn) (config : Config) (m : Message) (done : List (Did Op Resp)) : Prop :=
  ∃ frame draws link bytes, c = .tcp conn frame draws ∧ ⟨.receive conn (some frame),some link⟩ ∈ done ∧
    treat lib link frame = .handle bytes ∧ lib.parse bytes = some m ∧ link.config = config

/- The session table was asked for the token and named its user. -/
def Allowed (lib : Library) (token : String) (done : List (Did Op Resp)) : Prop :=
  ∃ name, ⟨.account (.selectUser (lib.prim.digest token)),.ok (some name)⟩ ∈ done

def Minted (lib : Library) (token uuid ticket : String) (done : List (Did Op Resp)) : Prop :=
  ⟨.account (.insertTicket (lib.prim.digest ticket) (lib.prim.digest token) uuid),.ok ()⟩ ∈ done

/- The peer that is asked for was found online, at the address the message goes to. -/
structure Summons (lib : Library) (key : String) (config : Config) (conn : Conn) (ph : PunchHoleRequest) (m : Message)
    (addr : SocketAddr) (done : List (Did Op Resp)) : Prop where
  licence : key = "" ∨ ph.licenceKey = key
  online : ∃ peer elapsed, Source ph.id done peer ∧ ⟨.lastSeen peer,(elapsed,addr)⟩ ∈ done ∧ elapsed < 30000
  asked : Asked lib config conn done m addr

/- The relay request goes on to where the peer is stored, with a ticket in place of the token. -/
structure Relays (lib : Library) (conn : Conn) (rf : RequestRelay) (m : Message) (addr : SocketAddr)
    (done : List (Did Op Resp)) : Prop where
  message : ∃ ticket, m = .requestRelay { rf with token := ticket,socketAddr := lib.encode conn.addr } ∧
    (ticket = "" ∨ Minted lib rf.token rf.uuid ticket done)
  stored : ∃ peer p, ⟨.registry (.mapRead rf.id),some peer⟩ ∈ done ∧ ⟨.registry (.peerRead peer),p⟩ ∈ done ∧ addr = p.socketAddr

/- A relay that the peer has started, and the token remembered for the controller it names. -/
def Remembered (lib : Library) (rr : RelayResponse) (token : String) (done : List (Did Op Resp)) : Prop :=
  ⟨.tokenFor (lib.tryIntoV4 (lib.decode rr.socketAddr),rr.id),some token⟩ ∈ done

/- What stands behind the operations that reach out to others. -/
def Guard (lib : Library) (key : String) (c : Call) (done : List (Did Op Resp)) : Op → Prop
  | .remember k token => ∃ conn config ph, Reads lib c conn config (.punchHoleRequest ph) done ∧ Allowed lib token done ∧
    k = (lib.tryIntoV4 conn.addr,ph.id) ∧ token = ph.token
  | .enqueue (.msg m addr) =>
    (∃ conn config ph, Reads lib c conn config (.punchHoleRequest ph) done ∧ Allowed lib ph.token done ∧
      Summons lib key config conn ph m addr done) ∨
    ∃ conn config rf, Reads lib c conn config (.requestRelay rf) done ∧ Allowed lib rf.token done ∧
      Relays lib conn rf m addr done
  | .account (.insertTicket _ sessionHash uuid) => ∃ token, sessionHash = lib.prim.digest token ∧ Allowed lib token done ∧
    ((∃ minted, c = .account (.ticket token uuid minted)) ∨
    (∃ conn config rf, Reads lib c conn config (.requestRelay rf) done ∧ token = rf.token ∧ uuid = rf.uuid) ∨
    ∃ conn config rr, Reads lib c conn config (.relayResponse rr) done ∧ Remembered lib rr token done ∧ uuid = rr.uuid)
  | .send _ (.requestRelay r) => (∀ conn frame draws, c ≠ .tcp conn frame draws) ∨ ∃ conn config rr token, Reads lib c conn config (.relayResponse rr) done ∧
    Remembered lib rr token done ∧ r.uuid = rr.uuid ∧ Minted lib token rr.uuid r.token done ∧ Allowed lib token done
  | _ => True

/- The operations nothing needs to stand behind. -/
def harmless : Op → Bool
  | .remember _ _ | .enqueue (.msg _ _) | .account (.insertTicket _ _ _) | .send _ (.requestRelay _) => false
  | _ => true

section Programs
variable {lib : Library} {key : String} {conn : Conn} {config : Config} {draws : Draws} {c : Call} {α : Type}

theorem harmlessGuard {o : Op} (free : harmless o = true) (done : List (Did Op Resp)) : Guard lib key c done o := by
  unfold harmless at free
  split at free
  · contradiction
  · contradiction
  · contradiction
  · contradiction
  · unfold Guard
    split <;> first | trivial | simp_all

theorem harmlessAfter {p : Prog Op Resp α} (all : p.Every fun o => harmless o = true) (done : List (Did Op Resp)) :
    p.EveryAfter (Guard lib key c) done := everyAfterOfEvery (fun done _ free => harmlessGuard free done) all done

theorem userEnds (token : String) (done : List (Did Op Resp)) : (account (AccountStore.user lib.prim token).run).Ends
    (fun done found => ∀ name, found = .ok (some name) → Allowed lib token done) done := by
  unfold account
  rw [AccountStore.userTree,embedIte]
  refine endsIte.mpr ⟨fun _ name wrong => (by cases wrong),fun _ r => ?_⟩
  cases r with
  | error e =>
    intro name wrong
    cases wrong
  | ok value =>
    intro name same
    cases same
    exact ⟨name,by simp⟩

theorem authorizedEnds (token : String) (done : List (Did Op Resp)) :
    (authorized lib token draws).Ends (fun done allowed => allowed = true → Allowed lib token done) done := by
  unfold authorized
  refine endsIte.mpr ⟨fun _ wrong => (by cases wrong),fun _ => endsBind.mpr (endsMono (fun done found known => ?_) (userEnds token done))⟩
  split
  · rename_i name
    exact fun _ => known name rfl
  · exact fun wrong => by cases wrong

/- A ticket is inserted for the token that was just found in the session table, and handed out once it is. -/
def Inserts (lib : Library) (token uuid : String) (done : List (Did Op Resp)) (o : Op) : Prop :=
  ∃ a, o = .account a ∧ ∀ h sessionHash relayId, a = .insertTicket h sessionHash relayId →
    sessionHash = lib.prim.digest token ∧ relayId = uuid ∧ Allowed lib token done

theorem ticketAlong (token uuid : String) (minted : AccountStore.Minted) (done : List (Did Op Resp)) :
    (account (AccountStore.ticket lib.prim token uuid minted).run).Along (Inserts lib token uuid)
      (fun done made => ∀ ticket, made = .ok (some ticket) → Minted lib token uuid ticket done ∧ Allowed lib token done) done := by
  have asks : ∀ done a, (∀ h sessionHash relayId, a ≠ .insertTicket h sessionHash relayId) →
      Inserts lib token uuid done (.account a) := fun done a other => ⟨a,rfl,fun h sessionHash relayId same => absurd same (other _ _ _)⟩
  unfold account
  rw [AccountStore.ticketTree,embedIte]
  refine alongIte.mpr ⟨fun _ ticket wrong => (by cases wrong),fun _ => ?_⟩
  rw [embedIte]
  refine alongIte.mpr ⟨fun _ ticket wrong => (by cases wrong),fun _ => ⟨asks _ _ (by simp),fun found => ?_⟩⟩
  cases found with
  | error e => exact fun ticket wrong => by cases wrong
  | ok name =>
    cases name with
    | none => exact fun ticket wrong => by cases wrong
    | some name =>
      refine ⟨asks _ _ (by simp),fun purged => ?_⟩
      cases purged with
      | error e => exact fun ticket wrong => by cases wrong
      | ok rows =>
        refine ⟨⟨_,rfl,?_⟩,fun inserted => ?_⟩
        · rintro h sessionHash relayId ⟨⟩
          exact ⟨rfl,rfl,name,by simp⟩
        · cases inserted with
          | error e => exact fun ticket wrong => by cases wrong
          | ok done =>
            rintro ticket ⟨⟩
            exact ⟨List.mem_append_right _ (.head _),name,by simp⟩

theorem peerTicketAlong (token uuid : String) (done : List (Did Op Resp)) :
    (peerTicket lib token uuid draws).Along (Inserts lib token uuid)
      (fun done made => ∀ ticket, made = some ticket → Minted lib token uuid ticket done ∧ Allowed lib token done) done := by
  unfold peerTicket
  refine alongIte.mpr ⟨fun _ ticket wrong => (by cases wrong),fun _ => alongBind.mpr ?_⟩
  refine alongMono (fun done made known => ?_) (ticketAlong token uuid draws.minted done)
  split
  · rintro ticket ⟨⟩
    exact known _ rfl
  · exact fun ticket wrong => by cases wrong

/- What has been done before stays done. -/
theorem everyAfterLonger {P : List (Did Op Resp) → Op → Prop} {p : Prog Op Resp α} {done : List (Did Op Resp)}
    (all : p.EveryAfter P done) : p.EveryAfter (fun done' o => P done' o ∧ ∃ later, done' = done ++ later) done := by
  suffices any : ∀ past, (∃ later, past = done ++ later) → p.EveryAfter P past →
      p.EveryAfter (fun done' o => P done' o ∧ ∃ later, done' = done ++ later) past from any done ⟨[],by simp⟩ all
  clear all
  induction p with
  | ret value => exact fun _ _ _ => trivial
  | op o next ih =>
    rintro past ⟨later,rfl⟩ all
    exact ⟨⟨all.1,later,rfl⟩,fun r => ih r _ ⟨later ++ [⟨o,r⟩],by simp⟩ (all.2 r)⟩

theorem everyAfterMono {P P' : List (Did Op Resp) → Op → Prop} {p : Prog Op Resp α} {done : List (Did Op Resp)}
    (weaker : ∀ done o, P done o → P' done o) (all : p.EveryAfter P done) : p.EveryAfter P' done := by
  induction p generalizing done with
  | ret value => trivial
  | op o next ih => exact ⟨weaker _ _ all.1,fun r => ih r (all.2 r)⟩

theorem peerTicketGuarded {token uuid : String} {done : List (Did Op Resp)}
    (why : ∀ later, (∃ conn config rf, Reads lib c conn config (.requestRelay rf) (done ++ later) ∧ token = rf.token ∧ uuid = rf.uuid) ∨
      ∃ conn config rr, Reads lib c conn config (.relayResponse rr) (done ++ later) ∧ Remembered lib rr token (done ++ later) ∧
        uuid = rr.uuid) : (peerTicket lib token uuid draws).EveryAfter (Guard lib key c) done := by
  refine everyAfterMono (fun done' o known => ?_) (everyAfterLonger (alongEvery (peerTicketAlong token uuid done)))
  obtain ⟨⟨a,rfl,inserts⟩,later,rfl⟩ := known
  cases a with
  | insertTicket h sessionHash relayId =>
    obtain ⟨rfl,rfl,allowed⟩ := inserts _ _ _ rfl
    exact ⟨token,rfl,allowed,.inr (why later)⟩
  | _ => trivial

/- Of the calls of the account service one mints tickets. -/
theorem accountGuarded (a : AccountCalls.Call) :
    (account (AccountCalls.program lib.prim a)).EveryAfter (Guard lib key (.account a)) [] := by
  have others : (∀ token relayId minted, a ≠ .ticket token relayId minted) →
      (account (AccountCalls.program lib.prim a)).EveryAfter (Guard lib key (.account a)) [] := by
    intro other
    refine harmlessAfter (embedEvery (fun o belongs => ?_) (AccountCalls.everyBelongs lib.prim a)) []
    cases o with
    | insertTicket h sessionHash relayId =>
      obtain ⟨token,minted,same,_⟩ := belongs
      exact absurd same (other _ _ _)
    | _ => rfl
  cases a with
  | ticket token relayId minted =>
    change (account (Except.map AccountCalls.Reply.minted <$> (AccountStore.ticket lib.prim token relayId minted).run)).EveryAfter _ _
    rw [account,map_eq_pure_bind,embedBind]
    refine everyAfterBind (everyAfterMono (fun done o known => ?_) (alongEvery (ticketAlong token relayId minted []))) fun _ _ => trivial
    obtain ⟨a,rfl,inserts⟩ := known
    cases a with
    | insertTicket h sessionHash relayId' =>
      obtain ⟨rfl,rfl,allowed⟩ := inserts _ _ _ rfl
      exact ⟨token,rfl,allowed,.inl ⟨minted,rfl⟩⟩
    | _ => trivial
  | _ => exact others (by simp)

theorem summonsEnds (ph : PunchHoleRequest) (done : List (Did Op Resp)) :
    (handlePunchHoleRequest lib config key conn ph draws).Ends
      (fun done r => ∀ addr, r.2 = some addr → Summons lib key config conn ph r.1 addr done) done := by
  have online : (handlePunchHoleRequest lib config key conn ph draws).Ends (fun done r => ∀ addr, r.2 = some addr →
      (key = "" ∨ ph.licenceKey = key) ∧
        ∃ peer elapsed, Source ph.id done peer ∧ ⟨.lastSeen peer,(elapsed,addr)⟩ ∈ done ∧ elapsed < 30000) done := by
    have nobody : ∀ (msg : Message) (done : List (Did Op Resp)), ∀ addr, ((msg,none) : Message × Option SocketAddr).2 = some addr →
        (key = "" ∨ ph.licenceKey = key) ∧
          ∃ peer elapsed, Source ph.id done peer ∧ ⟨.lastSeen peer,(elapsed,addr)⟩ ∈ done ∧ elapsed < 30000 :=
      fun _ _ _ wrong => by cases wrong
    unfold handlePunchHoleRequest act
    simp only [performIs,bindOp,bindRet]
    refine endsIte.mpr ⟨fun _ => nobody _ _,fun licensed => endsBind.mpr (endsMono (fun done peer source => ?_)
      (PeerUnseen.getSource ph.id draws.out.getPeer done))⟩
    have licence : key = "" ∨ ph.licenceKey = key := by
      by_cases same : ph.licenceKey = key
      · exact .inr same
      · simpa [same] using licensed
    cases peer with
    | none => exact nobody _ _
    | some peer =>
      refine fun seen => endsIte.mpr ⟨fun _ => nobody _ _,fun recent r => endsBind.mpr (endsMono (fun done' server longer => ?_)
        (endsLonger _ _))⟩
      obtain ⟨later,rfl⟩ := longer
      intro always
      have known : ∀ all, (∀ d ∈ done ++ [⟨.lastSeen peer,seen⟩], d ∈ all) → ∃ peer elapsed,
          Source ph.id all peer ∧ ⟨.lastSeen peer,(elapsed,seen.2)⟩ ∈ all ∧ elapsed < 30000 :=
        fun all inside => ⟨peer,seen.1,(source peer rfl).imp (fun there => inside _ (by simp [there]))
          fun ⟨row,there⟩ => ⟨row,inside _ (by simp [there])⟩,inside _ (by simp),Nat.not_le.mp recent⟩
      have kept : ∀ d ∈ done ++ [⟨.lastSeen peer,seen⟩], d ∈ done ++ [⟨.lastSeen peer,seen⟩] ++
          [⟨.recordPunch (lib.tryIntoV4 conn.addr).ip.text (lib.tryIntoV4 seen.2).ip.text ph.id,r⟩] ++ later ++
          [⟨.readAlwaysUseRelay,always⟩] :=
        fun d there => List.mem_append_left _ (List.mem_append_left _ (List.mem_append_left _ there))
      dsimp only
      split
      · rintro addr ⟨⟩
        exact ⟨licence,known _ kept⟩
      · rintro addr ⟨⟩
        exact ⟨licence,known _ kept⟩
  exact endsMono (fun done r both addr found => ⟨(both.1 addr found).1,(both.1 addr found).2,both.2 addr found⟩)
    (endsBoth online (RelayForcing.punchRequestEnds ph done))

theorem readsLater {m : Message} {done : List (Did Op Resp)} (reads : Reads lib c conn config m done) (later : List (Did Op Resp)) :
    Reads lib c conn config m (done ++ later) := by
  obtain ⟨frame,draws,link,bytes,call,received,rest⟩ := reads
  exact ⟨frame,draws,link,bytes,call,List.mem_append_left _ received,rest⟩

theorem allowedLater {token : String} {done : List (Did Op Resp)} (allowed : Allowed lib token done) (later : List (Did Op Resp)) :
    Allowed lib token (done ++ later) := by
  obtain ⟨name,there⟩ := allowed
  exact ⟨name,List.mem_append_left _ there⟩

theorem harmlessPeer (addr : SocketAddr) {msg : Message} (other : ∀ r, msg ≠ .requestRelay r) :
    (sendToTcpPeer lib addr msg).Every fun o => harmless o = true := by
  have sends : ∀ route, harmless (.send route msg) = true := by
    intro route
    cases msg with
    | requestRelay r => exact absurd rfl (other r)
    | _ => rfl
  exact everySendToTcpPeer (fun _ => rfl) (fun _ => sends _) fun _ _ => rfl

theorem harmlessAnswer (addr : SocketAddr) {msg : Message} (other : ∀ r, msg ≠ .requestRelay r) :
    (sendToTcp lib msg addr).Every fun o => harmless o = true := by
  have sends : ∀ route, harmless (.send route msg) = true := by
    intro route
    cases msg with
    | requestRelay r => exact absurd rfl (other r)
    | _ => rfl
  exact everySendToTcp (fun _ => rfl) (fun _ => rfl) (fun _ => sends _) fun _ _ => rfl

theorem harmlessUser (token : String) : (authorized lib token draws).Every fun o => harmless o = true := by
  unfold authorized account
  refine everyIte.mpr ⟨fun _ => trivial,fun _ => everyBind ?_ fun found => ?_⟩
  · rw [AccountStore.userTree,embedIte]
    refine everyIte.mpr ⟨fun _ => trivial,fun _ => ⟨rfl,fun r => ?_⟩⟩
    cases r <;> trivial
  · split <;> trivial

theorem punchAnswers (ph : PunchHoleRequest) (done : List (Did Op Resp)) : (handlePunchHoleRequest lib config key conn ph draws).Ends
    (fun _ made => ∀ r, made.1 ≠ .requestRelay r) done := by
  unfold handlePunchHoleRequest act
  simp only [performIs,bindOp,bindRet]
  refine endsIte.mpr ⟨fun _ => fun _ wrong => (by cases wrong),fun _ => endsBind.mpr (endsAll (fun done peer => ?_) _ _)⟩
  cases peer with
  | none => exact fun _ wrong => by cases wrong
  | some peer =>
    refine fun seen => endsIte.mpr ⟨fun _ => fun _ wrong => (by cases wrong),fun _ _ => endsBind.mpr (endsAll (fun done server => ?_) _ _)⟩
    intro always
    dsimp only
    split <;> exact fun _ wrong => by cases wrong

/- A connection gives its sink away, or has none to give. -/
theorem parkGuarded {next : Option Sink → Prog Op Resp α} {rest : Prog Op Resp α} {done : List (Did Op Resp)}
    (absent : next none = rest) (present : ∀ s, next (some s) = .op (.punchInsert (lib.tryIntoV4 conn.addr) s) fun _ => rest)
    (all : ∀ later, rest.EveryAfter (Guard lib key c) (done ++ later)) :
    (Prog.op (.takeSink conn) next : Prog Op Resp α).EveryAfter (Guard lib key c) done := by
  refine ⟨trivial,fun sink => ?_⟩
  cases (sink : Option Sink) with
  | none =>
    rw [absent]
    exact all _
  | some s =>
    rw [present]
    refine ⟨trivial,fun _ => ?_⟩
    rw [List.append_assoc]
    exact all _

/- Once let in, the token is remembered and the peer is summoned for it. -/
theorem punchArmGuarded (ph : PunchHoleRequest) {done : List (Did Op Resp)}
    (reads : Reads lib c conn config (.punchHoleRequest ph) done) :
    (handlePunchArm lib config key conn ph draws).EveryAfter (Guard lib key c) done := by
  have asked : ∀ done, Reads lib c conn config (.punchHoleRequest ph) done → Allowed lib ph.token done →
      (handleTcpPunchHoleRequest lib config key conn ph draws >>= fun _ => (.ret true : Prog Op Resp Bool)).EveryAfter
        (Guard lib key c) done := by
    intro done reads allowed
    have silent : (handlePunchHoleRequest lib config key conn ph draws).Every fun o => harmless o = true :=
      everyPunchRequest (fun _ => rfl) (fun _ => rfl) (fun _ _ _ => rfl) (by rfl) (by rfl) ph
    refine everyAfterBind (everyAfterBindEnds (harmlessAfter silent done) ?_) fun _ _ => trivial
    refine endsMono (fun done' made known => ?_) (endsBoth (endsBoth (summonsEnds ph done) (punchAnswers ph done)) (endsLonger _ done))
    obtain ⟨⟨summons,answers⟩,later,rfl⟩ := known
    obtain ⟨msg,toAddr⟩ := made
    cases toAddr with
    | none => exact harmlessAfter (harmlessAnswer conn.addr answers) _
    | some addr => exact ⟨.inl ⟨conn,config,ph,readsLater reads later,allowedLater allowed later,summons addr rfl⟩,fun _ => trivial⟩
  unfold handlePunchArm act
  refine everyAfterBindEnds (harmlessAfter (harmlessUser _) done) ?_
  refine endsMono (fun done' allowed known => ?_) (endsBoth (authorizedEnds ph.token done) (endsLonger _ done))
  obtain ⟨allows,later,rfl⟩ := known
  refine everyAfterIte.mpr ⟨fun _ => trivial,fun admitted => ?_⟩
  have reads := readsLater reads later
  have allowed : Allowed lib ph.token (done ++ later) := allows (by simpa using admitted)
  generalize done ++ later = so at reads allowed
  refine parkGuarded rfl (fun _ => rfl) fun rest => ?_
  refine ⟨⟨conn,config,ph,readsLater reads rest,allowedLater allowed rest,rfl,rfl⟩,fun _ => ?_⟩
  rw [List.append_assoc]
  exact asked _ (readsLater reads _) (allowedLater allowed _)

/- The ticket of a relay request is minted from its token, and the request goes on with it. -/
theorem relayArmGuarded (rf : RequestRelay) {done : List (Did Op Resp)} (reads : Reads lib c conn config (.requestRelay rf) done) :
    (handleRelayArm lib conn rf draws).EveryAfter (Guard lib key c) done := by
  unfold handleRelayArm act
  refine everyAfterBindEnds (harmlessAfter (harmlessUser _) done) ?_
  refine endsMono (fun done' allowed known => ?_) (endsBoth (authorizedEnds rf.token done) (endsLonger _ done))
  obtain ⟨allows,later,rfl⟩ := known
  refine everyAfterIte.mpr ⟨fun _ => trivial,fun admitted => ?_⟩
  have reads := readsLater reads later
  have allowed : Allowed lib rf.token (done ++ later) := allows (by simpa using admitted)
  generalize done ++ later = so at reads allowed
  have minted : (peerTicket lib rf.token rf.uuid draws).EveryAfter (Guard lib key c) so := peerTicketGuarded
    fun later => .inl ⟨conn,config,rf,readsLater reads later,rfl,rfl⟩
  refine everyAfterBindEnds minted ?_
  refine endsMono (fun done' ticket known => ?_) (endsBoth (alongEnds (peerTicketAlong rf.token rf.uuid so)) (endsLonger _ so))
  obtain ⟨mints,later,rfl⟩ := known
  refine parkGuarded rfl (fun _ => rfl) fun more => ⟨trivial,fun peer => ?_⟩
  cases (peer : Option LockPeer) with
  | none => trivial
  | some peer =>
    refine ⟨trivial,fun p => ⟨.inr ⟨conn,config,rf,?_,?_,⟨⟨ticket.getD "",rfl,?_⟩,peer,p,by simp,by simp,rfl⟩⟩,fun _ => trivial⟩⟩
    · simpa using readsLater reads (later ++ (more ++ [⟨.registry (.mapRead rf.id),some peer⟩,⟨.registry (.peerRead peer),p⟩]))
    · simpa using allowedLater allowed (later ++ (more ++ [⟨.registry (.mapRead rf.id),some peer⟩,⟨.registry (.peerRead peer),p⟩]))
    · cases ticket with
      | none => exact .inl rfl
      | some ticket =>
        right
        have there := (mints ticket rfl).1
        unfold Minted at there ⊢
        simp only [List.mem_append] at there ⊢
        exact .inl (.inl (.inl there))

/- The ticket that answers a relay the peer has started is minted from the remembered token. -/
theorem responseArmGuarded (rr : RelayResponse) {done : List (Did Op Resp)} (reads : Reads lib c conn config (.relayResponse rr) done) :
    (handleResponseArm lib config conn rr draws).EveryAfter (Guard lib key c) done := by
  have answered : (answerPeerInitiatedRelay lib rr (lib.decode rr.socketAddr) conn draws).EveryAfter (Guard lib key c) done := by
    refine everyAfterIte.mpr ⟨fun _ => trivial,fun _ => ⟨trivial,fun token => ?_⟩⟩
    cases (token : Option String) with
    | none => trivial
    | some token =>
      have known : ∀ later, Remembered lib rr token (done ++
          [⟨.tokenFor (lib.tryIntoV4 (lib.decode rr.socketAddr),rr.id),some token⟩] ++ later) := fun later => by simp [Remembered]
      have reads' := readsLater reads [⟨.tokenFor (lib.tryIntoV4 (lib.decode rr.socketAddr),rr.id),some token⟩]
      generalize done ++ [⟨.tokenFor (lib.tryIntoV4 (lib.decode rr.socketAddr),rr.id),some token⟩] = so at known reads'
      have minted : (peerTicket lib token rr.uuid draws).EveryAfter (Guard lib key c) so := peerTicketGuarded
        fun later => .inr ⟨conn,config,rr,readsLater reads' later,known later,rfl⟩
      refine everyAfterBindEnds (p := peerTicket lib token rr.uuid draws) minted ?_
      refine endsMono (fun done' ticket mints => ?_) (endsBoth (alongEnds (peerTicketAlong token rr.uuid so)) (endsLonger _ so))
      obtain ⟨mints,later,rfl⟩ := mints
      cases ticket with
      | none => trivial
      | some ticket =>
        have sends : (replyOnConnection lib conn (.requestRelay { uuid := rr.uuid,token := ticket })).Every fun o =>
            harmless o = true ∨ ∃ route, o = .send route (.requestRelay { uuid := rr.uuid,token := ticket }) :=
          everyReplyOnConnection (.inl rfl) (fun _ => .inl rfl) (fun _ => .inr ⟨_,rfl⟩) fun _ _ => .inl rfl
        refine everyAfterMono (fun done o known => ?_) (everyAfterLonger (everyAfterOfEvery (fun _ _ here => here) sends _))
        obtain ⟨free | ⟨route,rfl⟩,more,rfl⟩ := known
        · exact harmlessGuard free _
        · obtain ⟨minted,allowed⟩ := mints ticket rfl
          refine .inr ⟨conn,config,rr,token,readsLater (readsLater reads' later) more,?_,rfl,List.mem_append_left _ minted,
            allowedLater allowed more⟩
          have there := known (later ++ more)
          rwa [← List.append_assoc] at there
  have named : ∀ rr, (withPk lib config rr draws).Every fun o => harmless o = true := fun rr =>
    everyIte.mpr ⟨fun _ => trivial,fun _ => everyBind (everyGetPk (fun _ => rfl) _ _) fun _ => trivial⟩
  have chosen : ∀ rr addrB, (relayServerFor config rr addrB).Every fun o => harmless o = true := fun rr addrB =>
    everyIte.mpr ⟨fun _ => trivial,fun _ => everyIte.mpr ⟨fun _ => trivial,fun _ =>
      everyIte.mpr ⟨fun _ => everyGetRelayServer rfl,fun _ => trivial⟩⟩⟩
  unfold handleResponseArm
  refine everyAfterBind answered fun _ later => harmlessAfter ?_ _
  exact everyBind (named _) fun rr => everyBind (chosen _ _) fun _ => harmlessAnswer _ (by simp)

theorem tcpGuarded (bytes : Bytes) {done : List (Did Op Resp)}
    (reads : ∀ m, lib.parse bytes = some m → Reads lib c conn config m done) :
    (handleTcp lib config key conn bytes draws).EveryAfter (Guard lib key c) done := by
  have tcpPeer : (isTcpPeer lib conn.addr).Every fun o => harmless o = true := everyIsTcpPeer fun _ => rfl
  have pk : ∀ version id, (getPk lib config version id draws).Every fun o => harmless o = true := everyGetPk fun _ => rfl
  have adopts : (adoptSink lib conn).Every fun o => harmless o = true := everyAdoptSink rfl fun _ => rfl
  unfold handleTcp
  split
  · exact punchArmGuarded _ (reads _ ‹_›)
  · exact relayArmGuarded _ (reads _ ‹_›)
  · exact everyAfterBind (responseArmGuarded _ (reads _ ‹_›)) fun _ _ => harmlessAfter tcpPeer _
  · exact harmlessAfter (everyBind (everyBind (pk _ _) fun _ => harmlessAnswer _ (by simp)) fun _ => tcpPeer) done
  · exact harmlessAfter (everyBind (everyBind (pk _ _) fun _ => harmlessAnswer _ (by simp)) fun _ => tcpPeer) done
  · refine harmlessAfter (everyBind ?_ fun _ => tcpPeer) done
    exact everyReplyOnConnection rfl (fun _ => rfl) (fun _ => rfl) fun _ _ => rfl
  · refine harmlessAfter (everyBind (k := fun _ => .ret true) ?_ fun _ => trivial) done
    refine everyIte.mpr ⟨fun _ => trivial,fun _ => everyBind adopts fun _ => everyBind (everyRegistry (fun _ => rfl) _) fun _ => ?_⟩
    exact everyBind (harmlessPeer _ (by simp)) fun _ => everyIte.mpr
      ⟨fun _ => everyBind (harmlessPeer _ (by simp)) fun _ => trivial,fun _ => trivial⟩
  · refine harmlessAfter (everyBind (k := fun _ => .ret true) ?_ fun _ => trivial) done
    refine everyIte.mpr ⟨fun _ => trivial,fun _ => everyBind adopts fun _ => everyBind (everyRegistry (fun _ => rfl) _) fun _ => ?_⟩
    exact everyBind (harmlessPeer _ (by simp)) fun _ => trivial
  · exact harmlessAfter tcpPeer done

theorem programGuarded (c : Call) : (program lib key c).EveryAfter (Guard lib key c) [] := by
  have others : (∀ conn frame draws, c ≠ .tcp conn frame draws) → (∀ m addr, ¬ Performs c (.enqueue (.msg m addr))) →
      (∀ k token, ¬ Performs c (.remember k token)) → (∀ o, ¬ Performs c (.account o)) →
      (program lib key c).EveryAfter (Guard lib key c) [] := by
    intro other queues remembers store
    refine everyAfterOfEvery (fun done o allowed => ?_) (programPerforms lib key c) []
    unfold Guard
    split
    · exact absurd allowed (remembers _ _)
    · exact absurd allowed (queues _ _)
    · exact absurd allowed (store _)
    · exact .inl other
    · trivial
  cases c with
  | tcp conn frame draws =>
    have closes : ∀ done, (closing lib conn).EveryAfter (Guard lib key (.tcp conn frame draws)) done :=
      harmlessAfter (everyClosing rfl rfl rfl rfl)
    have served : ∀ done, (act (.served conn)).EveryAfter (Guard lib key (.tcp conn frame draws)) done :=
      harmlessAfter (everyAct rfl)
    refine ⟨trivial,fun link => ?_⟩
    cases (link : Option Link) with
    | none => trivial
    | some link =>
      change (serve lib key conn frame draws link).EveryAfter _ _
      unfold serve
      split
      · exact ⟨trivial,fun _ => served _⟩
      · exact closes _
      · rename_i bytes treated
        have handled : ∀ done, ⟨.receive conn (some frame),some link⟩ ∈ done →
            (handleTcp lib link.config key conn bytes draws >>= fun keep =>
              if keep then act (.served conn) else closing lib conn).EveryAfter (Guard lib key (.tcp conn frame draws)) done := by
          intro done there
          have reads : ∀ m, lib.parse bytes = some m → Reads lib (.tcp conn frame draws) conn link.config m done :=
            fun m parsed => ⟨frame,draws,link,bytes,rfl,there,treated,parsed,rfl⟩
          refine everyAfterBind (tcpGuarded bytes reads) fun keep later => ?_
          split
          · exact served _
          · exact closes _
        split
        · exact ⟨trivial,fun _ => handled _ (by simp)⟩
        · exact handled _ (by simp)
  | account a => exact everyAfterBind (accountGuarded a) fun _ _ => trivial
  | console addr cmd =>
    cases cmd with
    | testGeo => exact others (by simp) (fun _ _ wrong => wrong) (fun _ _ wrong => wrong) fun _ wrong => wrong
    | _ => exact others (by simp) (fun _ _ wrong => by cases wrong) (fun _ _ wrong => wrong) fun _ wrong => wrong
  | close conn => exact others (by simp) (fun _ _ wrong => by cases wrong) (fun _ _ wrong => by cases wrong) fun _ wrong => by cases wrong
  | relayCheck reachable =>
    refine others (by simp) (fun _ _ wrong => ?_) (fun _ _ wrong => wrong) fun _ wrong => wrong
    obtain ⟨_,wrong⟩ := wrong
    cases wrong
  | _ => exact others (by simp) (fun _ _ wrong => wrong) (fun _ _ wrong => wrong) fun _ wrong => wrong

end Programs

/- An operation of the same task that came first. -/
def Earlier (w : World) (e a : Event Op Resp Call Server) : Prop := a ∈ w.log ∧ a.task = e.task ∧ a.pos < e.pos

/- The task is handling this message of the connection. -/
def Handles (lib : Library) (w : World) (e : Event Op Resp Call Server) (conn : Conn) (config : Config) (m : Message) : Prop :=
  ∃ frame draws link bytes, e.call = .tcp conn frame draws ∧
    (∃ a, Earlier w e a ∧ a.did = ⟨.receive conn (some frame),some link⟩) ∧ treat lib link frame = .handle bytes ∧
    lib.parse bytes = some m ∧ link.config = config

/- It has found the token to be that of a live session. -/
structure Entitled (lib : Library) (w : World) (e : Event Op Resp Call Server) (conn : Conn) (config : Config) (m : Message)
    (token : String) : Prop where
  handles : Handles lib w e conn config m
  live : ∃ a, Earlier w e a ∧ SessionLive lib.prim a.before.accounts token

def recentlySeen (s : Server) (peer : LockPeer) : Prop :=
  (s.registry.now - (s.registry.peer peer).lastRegTime) / 1000000 < 30000

/- A peer is told of a controller that asked for it, at the address it was just found online at. -/
def Summoned (lib : Library) (key : String) (w : World) (e : Event Op Resp Call Server) (m : Message) (addr : SocketAddr) : Prop :=
  ∃ conn config ph, Entitled lib w e conn config (.punchHoleRequest ph) ph.token ∧ (key = "" ∨ ph.licenceKey = key) ∧
    (∃ a peer, Earlier w e a ∧ peer.id = ph.id ∧ recentlySeen a.before peer ∧ addr = (a.before.registry.peer peer).socketAddr) ∧
    ∃ a server nat, Earlier w e a ∧ m = RelayForcing.forwarded lib config conn addr a.before.alwaysUseRelay server nat

/- A peer gets a relay request, with a ticket of the session or none, where it is stored. -/
def Relayed (lib : Library) (w : World) (e : Event Op Resp Call Server) (m : Message) (addr : SocketAddr) : Prop :=
  ∃ conn config rf, Entitled lib w e conn config (.requestRelay rf) rf.token ∧
    (∃ a peer, Earlier w e a ∧ peer.id = rf.id ∧ addr = (a.before.registry.peer peer).socketAddr) ∧
    ∃ ticket, m = .requestRelay { rf with token := ticket,socketAddr := lib.encode conn.addr } ∧ (ticket = "" ∨
      ∃ a, Earlier w e a ∧
        a.did = ⟨.account (.insertTicket (lib.prim.digest ticket) (lib.prim.digest rf.token) rf.uuid),.ok ()⟩)

section Runs
variable {lib : Library} {expired : Nat → Nat} {key : String} {ok : World → Act Call Env → Prop} {s : Server} {w : World}

theorem liveOfAllowed (reach : (machine lib expired key).Reach ok s w) {e : Event Op Resp Call Server} {token : String}
    {done : List (Did Op Resp)} (past : ∀ d ∈ done, ∃ a ∈ w.log, a.task = e.task ∧ a.pos < e.pos ∧ a.did = d)
    (allowed : Allowed lib token done) : ∃ a, Earlier w e a ∧ SessionLive lib.prim a.before.accounts token := by
  obtain ⟨name,asked⟩ := allowed
  obtain ⟨a,inside,task,less,did⟩ := past _ asked
  have found := Machine.responseIs reach inside did
  refine ⟨a,⟨inside,task,less⟩,?_⟩
  obtain ⟨row,there,hash,owner,alive,account,listed,same,enabled⟩ := AccountFacts.selectUserIs.mp (Except.ok.inj found).symm
  exact ⟨row,there,hash,alive,account,listed,same.trans owner.symm,enabled⟩

theorem handlesOf {e : Event Op Resp Call Server} {conn : Conn} {config : Config} {m : Message} {done : List (Did Op Resp)}
    (past : ∀ d ∈ done, ∃ a ∈ w.log, a.task = e.task ∧ a.pos < e.pos ∧ a.did = d) (reads : Reads lib e.call conn config m done) :
    Handles lib w e conn config m := by
  obtain ⟨frame,draws,link,bytes,call,received,treated,parsed,same⟩ := reads
  obtain ⟨a,inside,task,less,did⟩ := past _ received
  exact ⟨frame,draws,link,bytes,call,⟨a,⟨inside,task,less⟩,did⟩,treated,parsed,same⟩

theorem entitledOf (reach : (machine lib expired key).Reach ok s w) {e : Event Op Resp Call Server} {conn : Conn}
    {config : Config} {m : Message} {token : String} {done : List (Did Op Resp)}
    (past : ∀ d ∈ done, ∃ a ∈ w.log, a.task = e.task ∧ a.pos < e.pos ∧ a.did = d)
    (reads : Reads lib e.call conn config m done) (allowed : Allowed lib token done) :
    Entitled lib w e conn config m token := ⟨handlesOf past reads,liveOfAllowed reach past allowed⟩

/- The peer that a lookup by id gave is the peer of that id. -/
theorem sourceNamed (empty : s.registry.map = ∅) (reach : (machine lib expired key).Reach ok s w) {e : Event Op Resp Call Server}
    {done : List (Did Op Resp)} (past : ∀ d ∈ done, ∃ a ∈ w.log, a.task = e.task ∧ a.pos < e.pos ∧ a.did = d)
    {id : String} {peer : LockPeer} (source : Source id done peer) : peer.id = id := by
  rcases source with read | ⟨row,loaded⟩
  · obtain ⟨a,inside,_,_,did⟩ := past _ read
    obtain ⟨v,reached,_,shared,_⟩ := Machine.moment reach inside
    have found : some peer = PeerPointers.entry a.before id := Machine.responseIs reach inside did
    rw [← shared] at found
    exact (PeerUnseen.remembered empty reached).named id peer found.symm
  · obtain ⟨a,inside,_,_,did⟩ := past _ loaded
    have made : peer = ⟨id,a.before.registry.heap.length⟩ := Machine.responseIs reach inside did
    rw [made]

/- Nothing is queued for a peer but for a message whose sender was logged in: a punch request for a peer
that is online, told so at its own address, or a relay request for it, with a ticket of that session. -/
theorem pushedOnAuthority (empty : s.registry.map = ∅) (reach : (machine lib expired key).Reach ok s w) :
    ∀ e ∈ w.log, ∀ m addr, e.did.1 = .enqueue (.msg m addr) → Summoned lib key w e m addr ∨ Relayed lib w e m addr := by
  intro e member m addr queued
  obtain ⟨done,guard,past⟩ := Machine.guarded (fun _ c => programGuarded c) reach member
  rw [queued] at guard
  rcases guard with ⟨conn,config,ph,reads,allowed,summons⟩ | ⟨conn,config,rf,reads,allowed,relays⟩
  · refine .inl ⟨conn,config,ph,entitledOf reach past reads allowed,summons.licence,?_,?_⟩
    · obtain ⟨peer,elapsed,source,seen,recent⟩ := summons.online
      obtain ⟨a,inside,task,less,did⟩ := past _ seen
      have both := Machine.responseIs reach inside did
      refine ⟨a,peer,⟨inside,task,less⟩,sourceNamed empty reach past source,?_,congrArg Prod.snd both⟩
      have same : elapsed = (a.before.registry.now - (a.before.registry.peer peer).lastRegTime) / 1000000 := congrArg Prod.fst both
      rwa [same] at recent
    · obtain ⟨always,server,nat,read,rfl⟩ := summons.asked
      obtain ⟨a,inside,task,less,did⟩ := past _ read
      have same : always = a.before.alwaysUseRelay := Machine.responseIs reach inside did
      exact ⟨a,server,nat,⟨inside,task,less⟩,by rw [same]⟩
  · obtain ⟨⟨ticket,rfl,minted⟩,peer,p,found,read,rfl⟩ := relays
    refine .inr ⟨conn,config,rf,entitledOf reach past reads allowed,?_,ticket,rfl,minted.imp_right fun there => ?_⟩
    · obtain ⟨a,inside,task,less,did⟩ := past _ read
      have same : p = a.before.registry.peer peer := Machine.responseIs reach inside did
      exact ⟨a,peer,⟨inside,task,less⟩,sourceNamed empty reach past (.inl found),by rw [same]⟩
    · obtain ⟨a,inside,task,less,did⟩ := past _ there
      exact ⟨a,⟨inside,task,less⟩,did⟩

/- The map of remembered tokens, with the write and the read of hbbs. -/
def punchSessions : ExpiringMap.Expiring (SocketAddr × String) String Sessions ttl where
  lookup k m := m.lookup k
  write now k token m := (retain (fun entry => decide (now - entry.2 < ttl)) m).insert k (token,now)
  after now k token m j := by
    rw [RendezvousService.lookupInserted,lookupRetain]
    rfl

def noted (e : Event Op Resp Call Server) : Option (ExpiringMap.Write (SocketAddr × String) String) :=
  match e.did.1 with
  | .remember k token => some ⟨e.before.registry.now,k,token⟩
  | _ => none

theorem notedIs {e : Event Op Resp Call Server} {x : ExpiringMap.Write (SocketAddr × String) String} :
    noted e = some x ↔ e.did.1 = .remember x.key x.value ∧ x.time = e.before.registry.now := by
  unfold noted
  constructor
  · intro found
    split at found
    · rename_i did
      cases found
      exact ⟨did,rfl⟩
    · contradiction
  · rintro ⟨did,time⟩
    rw [did,← time]

/- The tokens that were remembered, and when. -/
def remembers (log : List (Event Op Resp Call Server)) : List (ExpiringMap.Write (SocketAddr × String) String) :=
  log.filterMap noted

def sessionsAfter (d : Did Op Resp) (s : Server) (m : Sessions) : Sessions :=
  match d.1 with
  | .remember k token => punchSessions.write s.registry.now k token m
  | _ => m

theorem sessionsRecorded : HistoryFolds.Recorded (machine lib expired key) Server.punchSessions sessionsAfter where
  op o s := by
    cases o <;> first | rfl | skip
    all_goals simp only [machine,exec,sessionsAfter,Server.relink]
    all_goals repeat' split
    all_goals rfl
  env e s := by cases e <;> rfl

theorem sessionsWritten (log : List (Event Op Resp Call Server)) (m : Sessions) :
    HistoryFolds.replay sessionsAfter log m = ExpiringMap.written punchSessions (remembers log) m := by
  induction log using List.reverseRecOn with
  | nil => rfl
  | append_singleton log e ih =>
    rw [HistoryFolds.replayLast,ih]
    unfold remembers ExpiringMap.written
    rw [List.filterMap_append,List.foldl_append]
    obtain ⟨pos,i,c,before,⟨o,r⟩⟩ := e
    cases o <;> rfl

theorem clockForward (reach : (machine lib expired key).Reach ok s w) :
    ∀ e ∈ w.log, e.before.registry.now ≤ w.shared.registry.now := by
  refine Machine.invariant (I := fun w => ∀ e ∈ w.log, e.before.registry.now ≤ w.shared.registry.now) ?_ ?_ ?_ ?_ reach
  · simp [Machine.initial]
  · exact fun w c _ _ ih => ih
  · intro w i c o next _ _ _ _ ih e member
    show e.before.registry.now ≤ (exec lib expired o w.shared).2.registry.now
    rw [PeerUnseen.nowAfter]
    rcases Machine.memPerformed.mp member with old | rfl
    · exact ih e old
    · exact Nat.le_refl _
  · intro w e _ _ ih a member
    cases e with
    | tick ns => exact Nat.le_add_right_of_le (ih a member)
    | seconds n => exact ih a member

theorem clockOrder (reach : (machine lib expired key).Reach ok s w) {e e'} (left : e ∈ w.log) (right : e' ∈ w.log)
    (less : e.pos < e'.pos) : e.before.registry.now ≤ e'.before.registry.now := by
  obtain ⟨v,reached,_,shared,history,_⟩ := Machine.moment reach right
  rw [← shared]
  exact clockForward reached e ((history e).mpr ⟨left,less⟩)

theorem remembersSorted (reach : (machine lib expired key).Reach ok s w) (e : Event Op Resp Call Server) :
    (remembers (w.earlier e)).Pairwise fun x y => x.time ≤ y.time := by
  unfold remembers
  refine List.Pairwise.filterMap _ (R := fun a b => a ∈ w.log ∧ b ∈ w.log ∧ a.pos < b.pos) ?_ ?_
  · rintro a b ⟨left,right,less⟩ x hx y hy
    rw [(notedIs.mp hx).2,(notedIs.mp hy).2]
    exact clockOrder reach left right less
  · have sorted := (Machine.increasing reach).sublist (List.filter_sublist (p := fun a => decide (a.pos < e.pos)))
    refine sorted.imp_of_mem fun left right less => ⟨List.mem_of_mem_filter left,List.mem_of_mem_filter right,less⟩

/- What is found for a controller and a peer is the token remembered for them last, for a minute. -/
theorem rememberedExactly (empty : s.punchSessions = ∅) (reach : (machine lib expired key).Reach ok s w) :
    ∀ e ∈ w.log, ∀ k found, e.did = ⟨.tokenFor k,found⟩ → found =
      ((ExpiringMap.latest k (remembers (w.earlier e))).filter fun x => decide (e.before.registry.now - x.time < ttl)).map
        ExpiringMap.Write.value := by
  intro e member k found did
  have here : found = punchSessions.read e.before.registry.now k e.before.punchSessions := Machine.responseIs reach member did
  have past : ∀ x ∈ remembers (w.earlier e), x.time ≤ e.before.registry.now := by
    intro x there
    obtain ⟨a,inside,wrote⟩ := List.mem_filterMap.mp there
    obtain ⟨old,less⟩ := List.mem_filter.mp inside
    rw [(notedIs.mp wrote).2]
    exact clockOrder reach old member (by simpa using less)
  rw [here,HistoryFolds.recordedBefore sessionsRecorded reach member,empty,sessionsWritten]
  exact ExpiringMap.readLatest punchSessions (fun k => rfl) (remembersSorted reach e) past k

/- The token is that of the controller the peer names: the last to be let in from that address with a punch
request for that peer, less than a minute before. -/
structure OnBehalf (lib : Library) (w : World) (e : Event Op Resp Call Server) (rr : RelayResponse) (token : String)
    (d a : Event Op Resp Call Server) : Prop where
  looked : Earlier w e a
  asked : d ∈ w.log ∧ d.pos < a.pos ∧ a.before.registry.now < d.before.registry.now + ttl
  entitled : ∃ conn config ph, Entitled lib w d conn config (.punchHoleRequest ph) token ∧ ph.token = token ∧
    ph.id = rr.id ∧ lib.tryIntoV4 conn.addr = lib.tryIntoV4 (lib.decode rr.socketAddr)
  last : ∀ b ∈ w.log, d.pos < b.pos → b.pos < a.pos → ∀ token,
    b.did.1 ≠ .remember (lib.tryIntoV4 (lib.decode rr.socketAddr),rr.id) token

end Runs

section Concrete

def controllerConn : Conn := ⟨0,⟨.v4 203 0 113 5,4000⟩,false⟩
def peerConn : Conn := ⟨1,⟨.v4 198 51 100 7,4100⟩,false⟩

def startedRelay : Bytes → Option Message
  | [1] => some (.punchHoleRequest ⟨"100000003",.asymmetric,"",controllerToken.text⟩)
  | [2] => some (.registerPk ⟨"100000003",[1],[2]⟩)
  | [3] => some (.relayResponse ⟨plainEncode controllerConn.addr,"relay-1","",some (.id "100000003"),"","",[]⟩)
  | _ => none

def relayMachine := machine (plainLibrary startedRelay) hourAgo ""

/- A peer registers, a controller asks for it, and the peer starts a relay on a connection of its own. -/
def relayActs : List (Act Call Env) :=
  [.start (.udp ⟨.v4 198 51 100 7,21116⟩ [2] (calm AccountCalls.mintedB))] ++ advances 0 13 ++
    [.start (.accept controllerConn [] [])] ++ advances 1 4 ++
    [.start (.tcp controllerConn [1] (calm AccountCalls.mintedC))] ++ advances 2 11 ++
    [.start (.accept peerConn [] [])] ++ advances 3 4 ++
    [.start (.tcp peerConn [3] (calm AccountCalls.mintedC))] ++ advances 4 13

def remembering : SocketAddr × String := (controllerConn.addr,"100000003")

def responded (o : Op) [DecidableEq (Resp o)] (r : Resp o) (d : Did Op Resp) : Bool :=
  if same : d.1 = o then decide (same ▸ d.2 = r) else false

theorem respondedIs {o : Op} [DecidableEq (Resp o)] {r : Resp o} {d : Did Op Resp} (shown : responded o r d = true) : d = ⟨o,r⟩ := by
  obtain ⟨o',r'⟩ := d
  unfold responded at shown
  split at shown
  · rename_i same
    obtain rfl : o' = o := same
    exact congrArg (Sigma.mk o') (of_decide_eq_true shown)
  · contradiction

theorem relayStarted : ∃ w, relayMachine.Reach (fun _ _ => True) RelayForcing.unregistered w ∧
    (∃ e ∈ w.log, e.did.1 = .enqueue (.msg (.punchHole ⟨plainEncode controllerConn.addr,"",.asymmetric⟩) ⟨.v4 198 51 100 7,21116⟩)) ∧
    (∃ e ∈ w.log, e.did = ⟨.tokenFor remembering,some controllerToken.text⟩) ∧
    ∃ e ∈ w.log, e.call = .tcp peerConn [3] (calm AccountCalls.mintedC) ∧ e.did.1 = .send (.sink (.tcpStream peerConn none))
      (.requestRelay { uuid := "relay-1",token := AccountCalls.mintedC.text }) := by
  obtain ⟨w,reach,shown⟩ := Machine.reachWith (fun _ _ => True) (fun _ _ => true) (fun _ _ _ => trivial) relayActs
    (m := relayMachine) (s := RelayForcing.unregistered)
    (P := fun w => (w.log.any fun e => decide (e.did.1 = .enqueue (.msg
        (.punchHole ⟨plainEncode controllerConn.addr,"",.asymmetric⟩) ⟨.v4 198 51 100 7,21116⟩))) &&
      (w.log.any fun e => responded (.tokenFor remembering) (some controllerToken.text) e.did) &&
      w.log.any fun e => decide (e.call = .tcp peerConn [3] (calm AccountCalls.mintedC)) && decide (e.did.1 = .send
        (.sink (.tcpStream peerConn none)) (.requestRelay { uuid := "relay-1",token := AccountCalls.mintedC.text })))
    (by decide +kernel)
  simp only [Bool.and_eq_true,List.any_eq_true,decide_eq_true_eq] at shown
  obtain ⟨⟨queued,⟨e,inside,found⟩⟩,sent⟩ := shown
  exact ⟨w,reach,queued,⟨e,inside,respondedIs found⟩,sent⟩

theorem peerSummoned : ∃ w, relayMachine.Reach (fun _ _ => True) RelayForcing.unregistered w ∧ ∃ e ∈ w.log, ∃ m addr,
    e.did.1 = .enqueue (.msg m addr) ∧ (Summoned (plainLibrary startedRelay) "" w e m addr ∨ Relayed (plainLibrary startedRelay) w e m addr) := by
  obtain ⟨w,reach,⟨e,inside,queued⟩,_⟩ := relayStarted
  exact ⟨w,reach,e,inside,_,_,queued,pushedOnAuthority rfl reach e inside _ _ queued⟩

theorem tokenRemembered : ∃ w, relayMachine.Reach (fun _ _ => True) RelayForcing.unregistered w ∧ ∃ e ∈ w.log,
    some controllerToken.text = ((ExpiringMap.latest remembering (remembers (w.earlier e))).filter fun x =>
      decide (e.before.registry.now - x.time < ttl)).map ExpiringMap.Write.value := by
  obtain ⟨w,reach,_,⟨e,inside,did⟩,_⟩ := relayStarted
  exact ⟨w,reach,e,inside,rememberedExactly rfl reach e inside _ _ did⟩

end Concrete
end OpenuuServer.HandlerAuthority
